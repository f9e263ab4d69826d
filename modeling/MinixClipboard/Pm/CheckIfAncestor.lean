import MinixClipboard.Fault
import MinixClipboard.Library.Forest
import Mathlib.Data.Fin.VecNotation

/-!
# The ancestor check

`do_check_if_ancestor.c`, which the process manager runs for `check_if_ancestor`. The process table
is the manager's; what the function needs of it is an assumption (`Tree`), and the number of its
slots and the bit that marks an active one are parameters.

The function looks for a slot with the pid of the second process and goes on to its parent, again
and again, until it finds the first process or comes to the pid of `init`. How often it may do so is
an argument of the model, and `doCheckIfAncestor_eq` says that the number of slots is enough.
-/

namespace MinixClipboard

namespace Pm

/-- What the function reads of a slot of the process table. -/
structure Mproc where
  mpPid : Int32
  mpParent : Int32
  mpFlags : UInt32
  deriving DecidableEq, Repr

variable {nrProcs : ℕ} (inUse : UInt32) (mproc : Fin nrProcs → Mproc)

def slot (i : ℤ) : Except Fault Mproc :=
  if h : 0 ≤ i ∧ i < nrProcs then return mproc ⟨i.toNat, by omega⟩ else throw (.index i)

def pid (i : ℤ) : Except Fault Int32 := do return (← slot mproc i).mpPid

def parent (i : ℤ) : Except Fault ℤ := do return (← slot mproc i).mpParent.toInt

def active (i : ℤ) : Except Fault Bool := do return (← slot mproc i).mpFlags &&& inUse != 0

/-- The search for an active slot with this pid, with `n` slots from `i` on still to look at. -/
def findFrom (pid₂ : Int32) : ℕ → ℤ → Except Fault (Option ℤ)
  | 0, _ => return none
  | n + 1, i => do
    if (← active inUse mproc i) && (← pid mproc i) == pid₂ then return some i
    else findFrom pid₂ n (i + 1)

/-- The loop, for at most so many iterations. -/
def walk (pid₁ : Int32) : ℕ → ℤ → Except Fault (Option Int32)
  | 0, _ => return none
  | n + 1, lastIdx => do
    let currentIdx ← parent mproc lastIdx
    if (← pid mproc currentIdx) == pid₁ then return some 1
    if (← pid mproc currentIdx) ≠ 1 then walk pid₁ n currentIdx
    else return some 0

/-- `do_checkifancestor`, with at most so many iterations of its loop: it has no result if these
are not enough. -/
def doCheckIfAncestor (pid₁ pid₂ : Int32) (iterations : ℕ) : Except Fault (Option Int32) := do
  if pid₁ == pid₂ then return some 1
  match ← findFrom inUse mproc pid₂ nrProcs 0 with
  | none => return some 0
  | some currentIdx => walk mproc pid₁ iterations currentIdx

/-! ## What the table looks like -/

/-- Whether a slot is in use. -/
def IsActive (i : Fin nrProcs) : Prop := (mproc i).mpFlags &&& inUse ≠ 0

instance (i : Fin nrProcs) : Decidable (IsActive inUse mproc i) :=
  inferInstanceAs (Decidable ((mproc i).mpFlags &&& inUse ≠ 0))

/-- What the process manager maintains: the active slots are a tree of distinct processes, below
`init`. -/
structure Tree where
  /-- The slot of the parent of the process in a slot. -/
  up : Fin nrProcs → Fin nrProcs
  mpParent : ∀ i, (mproc i).mpParent.toInt = up i
  injective : ∀ i j, IsActive inUse mproc i → IsActive inUse mproc j →
    (mproc i).mpPid = (mproc j).mpPid → i = j
  /-- The slot of `init`. -/
  init : Fin nrProcs
  active_init : IsActive inUse mproc init
  pid_init : (mproc init).mpPid = 1
  up_init : up init = init
  active_up : ∀ i, IsActive inUse mproc i → IsActive inUse mproc (up i)
  reaches_init : ∀ i, IsActive inUse mproc i → ∃ k, up^[k] i = init

variable {inUse mproc} (t : Tree inUse mproc)

/-- The relation that is to be computed: `pid₁` is `pid₂`, or the pid of a slot above that of an
active process `pid₂`. -/
def AncestorOrSelf (pid₁ pid₂ : Int32) : Prop :=
  pid₁ = pid₂ ∨ ∃ i, IsActive inUse mproc i ∧ (mproc i).mpPid = pid₂ ∧
    ∃ j, Forest.Above t.up j i ∧ (mproc j).mpPid = pid₁

/-! ## The search -/

section Search

omit t in
theorem slot_of_fin (i : Fin nrProcs) : slot mproc (i : ℕ) = .ok (mproc i) := by
  have hi := i.isLt
  rw [slot, dif_pos (by omega)]
  simp only [Int.toNat_natCast, Fin.eta]
  rfl

omit t in
theorem pid_of_fin (i : Fin nrProcs) : pid mproc (i : ℕ) = .ok (mproc i).mpPid := by
  rw [pid, slot_of_fin]
  rfl

omit t in
theorem active_of_fin (i : Fin nrProcs) :
    active inUse mproc (i : ℕ) = .ok ((mproc i).mpFlags &&& inUse != 0) := by
  rw [active, slot_of_fin]
  rfl

omit t in
theorem findFrom_eq (pid₂ : Int32) : ∀ {n k : ℕ}, k + n = nrProcs →
    findFrom inUse mproc pid₂ n k = .ok ((((List.finRange nrProcs).drop k).find? fun i ↦
      (mproc i).mpFlags &&& inUse != 0 && (mproc i).mpPid == pid₂).map fun i ↦ ((i : ℕ) : ℤ)) := by
  intro n
  induction n with
  | zero =>
    intro k hk
    rw [List.drop_eq_nil_of_le (by simp; omega)]
    rfl
  | succ n ih =>
    intro k hk
    have hlt : k < nrProcs := by omega
    have hdrop : (List.finRange nrProcs).drop k
        = ⟨k, hlt⟩ :: (List.finRange nrProcs).drop (k + 1) := by
      rw [List.drop_eq_getElem_cons (by simpa using hlt), List.getElem_finRange]
      rfl
    have hactive : active inUse mproc k = _ := active_of_fin ⟨k, hlt⟩
    have hpid : pid mproc k = _ := pid_of_fin ⟨k, hlt⟩
    rw [findFrom, hactive, hdrop, List.find?_cons]
    change (do let p ← pid mproc k; if _ && p == pid₂ then _ else _) = _
    rw [hpid]
    change (if ((mproc ⟨k, hlt⟩).mpFlags &&& inUse != 0 && (mproc ⟨k, hlt⟩).mpPid == pid₂) = true
      then _ else _) = _
    cases (mproc ⟨k, hlt⟩).mpFlags &&& inUse != 0 && (mproc ⟨k, hlt⟩).mpPid == pid₂ with
    | true => rfl
    | false => exact ih (k := k + 1) (by omega)

omit t in
theorem findFrom_cases (pid₂ : Int32) :
    (∃ i : Fin nrProcs, findFrom inUse mproc pid₂ nrProcs 0 = .ok (some ((i : ℕ) : ℤ)) ∧
      IsActive inUse mproc i ∧ (mproc i).mpPid = pid₂) ∨
    findFrom inUse mproc pid₂ nrProcs 0 = .ok none ∧
      ∀ i, IsActive inUse mproc i → (mproc i).mpPid ≠ pid₂ := by
  have hfind := @findFrom_eq _ inUse mproc pid₂ _ _ (Nat.zero_add nrProcs)
  rw [List.drop_zero] at hfind
  cases hf : (List.finRange nrProcs).find? fun i ↦
      (mproc i).mpFlags &&& inUse != 0 && (mproc i).mpPid == pid₂ with
  | none =>
    rw [hf] at hfind
    refine Or.inr ⟨hfind, fun i hactive hpid ↦ ?_⟩
    have hnot := List.find?_eq_none.mp hf i (List.mem_finRange i)
    rw [Bool.and_eq_true, bne_iff_ne, beq_iff_eq] at hnot
    exact hnot ⟨hactive, hpid⟩
  | some i =>
    rw [hf] at hfind
    have hi := List.find?_some hf
    rw [Bool.and_eq_true, bne_iff_ne, beq_iff_eq] at hi
    exact Or.inl ⟨i, hfind, hi.1, hi.2⟩

end Search

/-! ## The loop -/

section Walk

variable {pid₁ : Int32} {i : Fin nrProcs}

omit t in
/-- One iteration of the loop, where all parents are slots. -/
theorem walk_succ_of_parents {up : Fin nrProcs → Fin nrProcs}
    (hup : ∀ i, (mproc i).mpParent.toInt = up i) (pid₁ : Int32) (n : ℕ) (i : Fin nrProcs) :
    walk mproc pid₁ (n + 1) (i : ℕ) = if (mproc (up i)).mpPid = pid₁ then .ok (some 1)
      else if (mproc (up i)).mpPid ≠ 1 then walk mproc pid₁ n (up i : ℕ)
      else .ok (some 0) := by
  have hparent : parent mproc (i : ℕ) = .ok ((up i : ℕ) : ℤ) := by
    rw [parent, slot_of_fin, ← hup]
    rfl
  rw [walk, hparent]
  change (do let p ← pid mproc (up i : ℕ); _) = _
  rw [pid_of_fin]
  change (if ((mproc (up i)).mpPid == pid₁) = true then _
    else if (mproc (up i)).mpPid ≠ 1 then _ else _) = _
  simp only [beq_iff_eq]
  rfl

theorem walk_succ (pid₁ : Int32) (n : ℕ) (i : Fin nrProcs) :
    walk mproc pid₁ (n + 1) (i : ℕ) = if (mproc (t.up i)).mpPid = pid₁ then .ok (some 1)
      else if (mproc (t.up i)).mpPid ≠ 1 then walk mproc pid₁ n (t.up i : ℕ)
      else .ok (some 0) :=
  walk_succ_of_parents t.mpParent pid₁ n i

theorem eq_init (hactive : IsActive inUse mproc i) (hpid : (mproc i).mpPid = 1) : i = t.init :=
  t.injective i t.init hactive t.active_init (hpid.trans t.pid_init.symm)

/-- **The loop.** From a slot that is `d` steps below `init`, it needs at most `d` iterations, and
one if it is `init`, to find out whether the process it looks for is above. -/
theorem walk_eq (hactive : IsActive inUse mproc i) {d n : ℕ} (hd : t.up^[d] i = t.init)
    (hmin : ∀ m < d, t.up^[m] i ≠ t.init) (hn : d ≤ n) (hpos : 0 < n) :
    ((∃ j, Forest.Above t.up j i ∧ (mproc j).mpPid = pid₁) →
      walk mproc pid₁ n (i : ℕ) = .ok (some 1)) ∧
    ((¬∃ j, Forest.Above t.up j i ∧ (mproc j).mpPid = pid₁) →
      walk mproc pid₁ n (i : ℕ) = .ok (some 0)) := by
  induction n generalizing i d with
  | zero => omega
  | succ n ih =>
    have hup := t.active_up i hactive
    rw [walk_succ t]
    by_cases hpid : (mproc (t.up i)).mpPid = pid₁
    · rw [if_pos hpid]
      exact ⟨fun _ ↦ rfl, fun hnone ↦ absurd ⟨t.up i, ⟨0, rfl⟩, hpid⟩ hnone⟩
    -- the parent is not the one, so it is above the parent if it is above at all
    have hiff : (∃ j, Forest.Above t.up j i ∧ (mproc j).mpPid = pid₁) ↔
        ∃ j, Forest.Above t.up j (t.up i) ∧ (mproc j).mpPid = pid₁ := by
      refine exists_congr fun j ↦ and_congr_left fun hj ↦ ?_
      rw [Forest.above_iff]
      refine or_iff_right ?_
      rintro rfl
      exact hpid hj
    rw [if_neg hpid, hiff]
    by_cases hinit : (mproc (t.up i)).mpPid = 1
    · rw [if_neg (not_not.mpr hinit)]
      refine ⟨?_, fun _ ↦ rfl⟩
      rintro ⟨j, hj, hpj⟩
      rw [eq_init t hup hinit] at hj hpid
      rw [Forest.eq_of_above_root t.up_init hj] at hpj
      exact absurd hpj hpid
    · rw [if_pos hinit]
      have hne : t.up i ≠ t.init := fun h ↦ hinit (h ▸ t.pid_init)
      obtain ⟨d, rfl⟩ : ∃ d', d = d' + 1 := by
        refine Nat.exists_eq_succ_of_ne_zero ?_
        rintro rfl
        have hi : i = t.init := hd
        exact hne (hi ▸ t.up_init)
      have hd₀ : d ≠ 0 := by
        rintro rfl
        exact hne hd
      exact ih hup hd (fun m hm ↦ hmin (m + 1) (by omega)) (by omega) (by omega)

end Walk

/-! ## The function -/

/-- The function returns after at most as many iterations as there are slots, and has found out
whether `pid₁` is `pid₂` or above it. -/
theorem doCheckIfAncestor_eq (pid₁ pid₂ : Int32) :
    (AncestorOrSelf t pid₁ pid₂ →
      doCheckIfAncestor inUse mproc pid₁ pid₂ nrProcs = .ok (some 1)) ∧
    (¬AncestorOrSelf t pid₁ pid₂ →
      doCheckIfAncestor inUse mproc pid₁ pid₂ nrProcs = .ok (some 0)) := by
  rw [doCheckIfAncestor]
  by_cases hsame : pid₁ = pid₂
  · rw [if_pos (beq_iff_eq.mpr hsame)]
    exact ⟨fun _ ↦ rfl, fun hnone ↦ absurd (Or.inl hsame) hnone⟩
  rw [if_neg (by simpa using hsame)]
  rcases @findFrom_cases _ inUse mproc pid₂ with
    ⟨i, hfind, hactive, hpid⟩ | ⟨hfind, hnone⟩
  · obtain ⟨d, hlt, hd, hmin⟩ := Forest.exists_shortest (t.reaches_init i hactive)
    rw [Fintype.card_fin] at hlt
    have hwalk := @walk_eq _ _ _ t pid₁ i hactive _ _ hd hmin hlt.le (Nat.zero_lt_of_lt hlt)
    have hiff : AncestorOrSelf t pid₁ pid₂ ↔
        ∃ j, Forest.Above t.up j i ∧ (mproc j).mpPid = pid₁ := by
      rw [AncestorOrSelf, or_iff_right hsame]
      constructor
      · rintro ⟨i', hactive', hpid', hj⟩
        rwa [t.injective i' i hactive' hactive (hpid'.trans hpid.symm)] at hj
      · exact fun hj ↦ ⟨i, hactive, hpid, hj⟩
    rw [hiff, hfind]
    exact hwalk
  · rw [hfind]
    refine ⟨?_, fun _ ↦ rfl⟩
    rintro (hsame' | ⟨i, hactive, hpid, -⟩)
    · exact absurd hsame' hsame
    · exact absurd hpid (hnone i hactive)

/-! ## The relation -/

theorem active_of_above {i j : Fin nrProcs} (hactive : IsActive inUse mproc i)
    (hj : Forest.Above t.up j i) : IsActive inUse mproc j := by
  obtain ⟨k, rfl⟩ := hj
  have hall : ∀ m, IsActive inUse mproc (t.up^[m] i) := by
    intro m
    induction m with
    | zero => exact hactive
    | succ m ih =>
      rw [Function.iterate_succ_apply']
      exact t.active_up _ ih
  exact hall (k + 1)

variable {p q r : Int32}

theorem AncestorOrSelf.trans (hpq : AncestorOrSelf t p q) (hqr : AncestorOrSelf t q r) :
    AncestorOrSelf t p r := by
  rcases hpq with rfl | ⟨i, hi, hiq, j, hj, hjp⟩
  · exact hqr
  rcases hqr with rfl | ⟨k, hk, hkr, m, hm, hmq⟩
  · exact Or.inr ⟨i, hi, hiq, j, hj, hjp⟩
  · rw [t.injective i m hi (active_of_above t hk hm) (hiq.trans hmq.symm)] at hj
    exact Or.inr ⟨k, hk, hkr, j, hj.trans hm, hjp⟩

theorem AncestorOrSelf.antisymm (hpq : AncestorOrSelf t p q) (hqp : AncestorOrSelf t q p) :
    p = q := by
  rcases hpq with rfl | ⟨i, hi, hiq, j, hj, hjp⟩
  · rfl
  rcases hqp with rfl | ⟨k, hk, hkp, m, hm, hmq⟩
  · rfl
  have hji : j = k := t.injective j k (active_of_above t hi hj) hk (hjp.trans hkp.symm)
  have hmi : m = i := t.injective m i (active_of_above t hk hm) hi (hmq.trans hiq.symm)
  rw [hji] at hj
  rw [hmi] at hm
  have hroot := Forest.eq_root_of_above t.up_init (t.reaches_init i hi) hj hm
  have hroot' := Forest.eq_root_of_above t.up_init (t.reaches_init k hk) hm hj
  rw [← hkp, ← hiq, hroot, hroot']

/-- **The ancestor check.** For every process table, the function returns after at most as many
iterations as there are slots. It computes whether a process is another one or above it, and this is
an order. -/
theorem doCheckIfAncestor_computes :
    (∀ pid₁ pid₂,
      (AncestorOrSelf t pid₁ pid₂ →
        doCheckIfAncestor inUse mproc pid₁ pid₂ nrProcs = .ok (some 1)) ∧
      (¬AncestorOrSelf t pid₁ pid₂ →
        doCheckIfAncestor inUse mproc pid₁ pid₂ nrProcs = .ok (some 0))) ∧
    (∀ p, AncestorOrSelf t p p) ∧
    (∀ p q r, AncestorOrSelf t p q → AncestorOrSelf t q r → AncestorOrSelf t p r) ∧
    ∀ p q, AncestorOrSelf t p q → AncestorOrSelf t q p → p = q :=
  ⟨doCheckIfAncestor_eq t, fun _ ↦ Or.inl rfl, fun _ _ _ hpq hqr ↦ hpq.trans t hqr,
    fun _ _ hpq hqp ↦ hpq.antisymm t hqp⟩

/-- `init`, a process below it, one below that, and a slot that is free. -/
def sampleTable : Fin 4 → Mproc := ![⟨1, 0, 1⟩, ⟨5, 0, 1⟩, ⟨9, 1, 1⟩, ⟨5, 2, 0⟩]

def sampleTree : Tree 1 sampleTable where
  up := ![0, 0, 1, 2]
  mpParent := by decide
  injective := by decide
  init := 0
  active_init := by decide
  pid_init := rfl
  up_init := rfl
  active_up := by decide
  reaches_init i _ := ⟨3, by revert i; decide⟩

theorem doCheckIfAncestor_computes_sample : AncestorOrSelf sampleTree 1 9 ∧
    doCheckIfAncestor 1 sampleTable 1 9 4 = .ok (some 1) := by
  have hone : AncestorOrSelf sampleTree 1 9 :=
    Or.inr ⟨2, by decide, rfl, 0, ⟨1, rfl⟩, rfl⟩
  exact ⟨hone, ((doCheckIfAncestor_computes sampleTree).1 1 9).1 hone⟩

end Pm

end MinixClipboard
