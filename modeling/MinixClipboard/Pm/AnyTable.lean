import MinixClipboard.Pm.CheckIfAncestor

/-!
# The ancestor check on any table

That the active slots are a tree below `init` is what the process manager maintains. The function
itself relies on it for one thing only: that its loop ends. On any table whose parents are slots,
with pids that occur twice, without an `init`, or with parents in a circle, the loop ends within as
many iterations as there are slots or never, and it never does where what is above the second
process has neither `init` in it nor the first one (`doCheckIfAncestor_classified`). Then the
process manager hangs, and with it the system.

What it finds out is not always whether one process is above the other: where `init` does not come
last, the loop ends too early.
-/

namespace MinixClipboard

namespace Pm

variable {nrProcs : ℕ} {inUse : UInt32} {mproc : Fin nrProcs → Mproc}
  {up : Fin nrProcs → Fin nrProcs} {pid₁ pid₂ : Int32} {i j : Fin nrProcs}

/-! ## The search -/

/-- The slot the search finds: the first active one with this pid. -/
structure IsFirst (inUse : UInt32) (mproc : Fin nrProcs → Mproc) (pid₂ : Int32)
    (i : Fin nrProcs) : Prop where
  active : IsActive inUse mproc i
  mpPid : (mproc i).mpPid = pid₂
  first : ∀ j < i, IsActive inUse mproc j → (mproc j).mpPid ≠ pid₂

theorem IsFirst.unique (hi : IsFirst inUse mproc pid₂ i) (hj : IsFirst inUse mproc pid₂ j) :
    i = j := by
  rcases lt_trichotomy i j with hlt | heq | hlt
  · exact absurd hi.mpPid (hj.first i hlt hi.active)
  · exact heq
  · exact absurd hj.mpPid (hi.first j hlt hj.active)

theorem findFrom_first (pid₂ : Int32) :
    (∃ i : Fin nrProcs, findFrom inUse mproc pid₂ nrProcs 0 = .ok (some ((i : ℕ) : ℤ)) ∧
      IsFirst inUse mproc pid₂ i) ∨
    findFrom inUse mproc pid₂ nrProcs 0 = .ok none ∧ ∀ i, ¬IsFirst inUse mproc pid₂ i := by
  have hfind := @findFrom_eq _ inUse mproc pid₂ _ _ (Nat.zero_add nrProcs)
  rw [List.drop_zero] at hfind
  cases hf : (List.finRange nrProcs).find? fun i ↦
      (mproc i).mpFlags &&& inUse != 0 && (mproc i).mpPid == pid₂ with
  | none =>
    rw [hf] at hfind
    refine Or.inr ⟨hfind, fun i hi ↦ ?_⟩
    have hnot := List.find?_eq_none.mp hf i (List.mem_finRange i)
    rw [Bool.and_eq_true, bne_iff_ne, beq_iff_eq] at hnot
    exact hnot ⟨hi.active, hi.mpPid⟩
  | some i =>
    rw [hf] at hfind
    obtain ⟨hi, k, hk, rfl, hbefore⟩ := List.find?_eq_some_iff_getElem.mp hf
    rw [Bool.and_eq_true, bne_iff_ne, beq_iff_eq] at hi
    refine Or.inl ⟨_, hfind, hi.1, hi.2, fun j hj hactive hpid ↦ ?_⟩
    rw [List.getElem_finRange] at hj
    have hnot := hbefore j hj
    simp only [List.getElem_finRange, Bool.not_eq_true', Bool.and_eq_false_iff] at hnot
    rcases hnot with hnot | hnot
    · exact hactive (by simpa using hnot)
    · exact absurd hpid (by simpa using hnot)

/-! ## The loop -/

/-- The loop ends at the parent of this slot. -/
def StopsAt (mproc : Fin nrProcs → Mproc) (up : Fin nrProcs → Fin nrProcs) (pid₁ : Int32)
    (i : Fin nrProcs) : Prop :=
  (mproc (up i)).mpPid = pid₁ ∨ (mproc (up i)).mpPid = 1

section Walk

variable (hup : ∀ i, (mproc i).mpParent.toInt = up i)
include hup

theorem walk_succ_of_not_stopsAt (hnot : ¬StopsAt mproc up pid₁ i) (n : ℕ) :
    walk mproc pid₁ (n + 1) (i : ℕ) = walk mproc pid₁ n (up i : ℕ) := by
  rw [StopsAt, not_or] at hnot
  rw [walk_succ_of_parents hup, if_neg hnot.1, if_pos hnot.2]

/-- The loop ends `k` slots further up, if that is where it first may. -/
theorem walk_eq_of_stopsAt {k : ℕ} (n : ℕ) (hk : StopsAt mproc up pid₁ (up^[k] i))
    (hmin : ∀ m < k, ¬StopsAt mproc up pid₁ (up^[m] i)) :
    walk mproc pid₁ n (i : ℕ) = .ok (if n ≤ k then none
      else some (if (mproc (up^[k + 1] i)).mpPid = pid₁ then 1 else 0)) := by
  induction n generalizing i k with
  | zero => rw [if_pos (Nat.zero_le k)]; rfl
  | succ n ih =>
    cases k with
    | zero =>
      have hone : ¬n + 1 ≤ 0 := by omega
      have hfirst : up^[0 + 1] i = up i := rfl
      rw [walk_succ_of_parents hup, if_neg hone, hfirst]
      by_cases hpid : (mproc (up i)).mpPid = pid₁
      · rw [if_pos hpid, if_pos hpid]
      · have hinit : (mproc (up i)).mpPid = 1 := hk.resolve_left hpid
        rw [if_neg hpid, if_neg hpid, if_neg (not_not.mpr hinit)]
    | succ k =>
      have hnot : ¬StopsAt mproc up pid₁ i := hmin 0 (Nat.succ_pos k)
      have hk' : StopsAt mproc up pid₁ (up^[k] (up i)) := hk
      rw [walk_succ_of_not_stopsAt hup hnot, ih hk' fun m hm ↦ hmin (m + 1) (Nat.succ_lt_succ hm)]
      simp only [Nat.add_le_add_iff_right]
      rfl

theorem walk_eq_none (hnot : ∀ k, ¬StopsAt mproc up pid₁ (up^[k] i)) (n : ℕ) :
    walk mproc pid₁ n (i : ℕ) = .ok none := by
  induction n generalizing i with
  | zero => rfl
  | succ n ih =>
    have hi : ¬StopsAt mproc up pid₁ i := hnot 0
    rw [walk_succ_of_not_stopsAt hup hi]
    exact ih fun k ↦ hnot (k + 1)

theorem walk_cases (pid₁ : Int32) (i : Fin nrProcs) :
    (∃ k < nrProcs, StopsAt mproc up pid₁ (up^[k] i) ∧
      (∀ m < k, ¬StopsAt mproc up pid₁ (up^[m] i)) ∧
      ∀ n, walk mproc pid₁ n (i : ℕ) = .ok (if n ≤ k then none
        else some (if (mproc (up^[k + 1] i)).mpPid = pid₁ then 1 else 0))) ∨
    (∀ k, ¬StopsAt mproc up pid₁ (up^[k] i)) ∧ ∀ n, walk mproc pid₁ n (i : ℕ) = .ok none := by
  by_cases h : ∃ k, StopsAt mproc up pid₁ (up^[k] i)
  · obtain ⟨k, hlt, hk, hmin⟩ := Forest.exists_first h
    rw [Fintype.card_fin] at hlt
    exact Or.inl ⟨k, hlt, hk, hmin, fun n ↦ walk_eq_of_stopsAt hup n hk hmin⟩
  · exact Or.inr ⟨not_exists.mp h, walk_eq_none hup (not_exists.mp h)⟩

end Walk

/-! ## The function -/

/-- The pid is met on the way up from this slot, and that of `init` is not met before. -/
def MetBeforeInit (mproc : Fin nrProcs → Mproc) (up : Fin nrProcs → Fin nrProcs) (pid₁ : Int32)
    (i : Fin nrProcs) : Prop :=
  ∃ k, (mproc (up^[k + 1] i)).mpPid = pid₁ ∧ ∀ m < k, (mproc (up^[m + 1] i)).mpPid ≠ 1

/-- Neither this pid nor that of `init` is met on the way up from this slot. -/
def NeverMet (mproc : Fin nrProcs → Mproc) (up : Fin nrProcs → Fin nrProcs) (pid₁ : Int32)
    (i : Fin nrProcs) : Prop :=
  ∀ j, Forest.Above up j i → (mproc j).mpPid ≠ pid₁ ∧ (mproc j).mpPid ≠ 1

theorem not_stopsAt_iff : ¬StopsAt mproc up pid₁ i ↔
    (mproc (up i)).mpPid ≠ pid₁ ∧ (mproc (up i)).mpPid ≠ 1 := not_or

theorem neverMet_iff : NeverMet mproc up pid₁ i ↔ ∀ k, ¬StopsAt mproc up pid₁ (up^[k] i) := by
  simp only [not_stopsAt_iff, ← Function.iterate_succ_apply']
  exact ⟨fun h k ↦ h _ ⟨k, rfl⟩, by rintro h j ⟨k, rfl⟩; exact h k⟩

/-- Where the loop first may end, the pid is met if it is met before `init` at all. -/
theorem metBeforeInit_iff {k : ℕ} (hk : StopsAt mproc up pid₁ (up^[k] i))
    (hmin : ∀ m < k, ¬StopsAt mproc up pid₁ (up^[m] i)) :
    MetBeforeInit mproc up pid₁ i ↔ (mproc (up^[k + 1] i)).mpPid = pid₁ := by
  rw [StopsAt, ← Function.iterate_succ_apply' up] at hk
  simp only [not_stopsAt_iff, ← Function.iterate_succ_apply' up] at hmin
  refine ⟨?_, fun hpid ↦ ⟨k, hpid, fun m hm ↦ (hmin m hm).2⟩⟩
  rintro ⟨k', hpid, hbefore⟩
  rcases Nat.lt_trichotomy k k' with hlt | rfl | hlt
  · exact hk.resolve_right (hbefore k hlt)
  · exact hpid
  · exact absurd hpid (hmin k' hlt).1

section Classified

variable (hup : ∀ i, (mproc i).mpParent.toInt = up i)
include hup

omit hup in
theorem doCheckIfAncestor_cases (hne : pid₁ ≠ pid₂) :
    (∃ i, IsFirst inUse mproc pid₂ i ∧
      ∀ n, doCheckIfAncestor inUse mproc pid₁ pid₂ n = walk mproc pid₁ n (i : ℕ)) ∨
    (∀ i, ¬IsFirst inUse mproc pid₂ i) ∧
      ∀ n, doCheckIfAncestor inUse mproc pid₁ pid₂ n = .ok (some 0) := by
  have hbeq : (pid₁ == pid₂) ≠ true := by simpa using hne
  rcases @findFrom_first _ inUse mproc pid₂ with ⟨i, hfind, hi⟩ | ⟨hfind, hnone⟩
  · refine Or.inl ⟨i, hi, fun n ↦ ?_⟩
    rw [doCheckIfAncestor, if_neg hbeq, hfind]
    rfl
  · refine Or.inr ⟨hnone, fun n ↦ ?_⟩
    rw [doCheckIfAncestor, if_neg hbeq, hfind]
    rfl

/-- **The ancestor check on any table.** Where all parents are slots, the function returns after at
most as many iterations as there are slots, or it never returns. It returns `1` if the pids are the
same, or the first is met on the way up from the first active slot with the second, before `init`;
it never returns if neither of the two is met there; and it returns `0` in every other case. -/
theorem doCheckIfAncestor_classified (pid₁ pid₂ : Int32) :
    (∀ n, nrProcs ≤ n → doCheckIfAncestor inUse mproc pid₁ pid₂ n
      = doCheckIfAncestor inUse mproc pid₁ pid₂ nrProcs) ∧
    (doCheckIfAncestor inUse mproc pid₁ pid₂ nrProcs = .ok (some 1) ↔
      pid₁ = pid₂ ∨ ∃ i, IsFirst inUse mproc pid₂ i ∧ MetBeforeInit mproc up pid₁ i) ∧
    ((∀ n, doCheckIfAncestor inUse mproc pid₁ pid₂ n = .ok none) ↔
      pid₁ ≠ pid₂ ∧ ∃ i, IsFirst inUse mproc pid₂ i ∧ NeverMet mproc up pid₁ i) ∧
    (doCheckIfAncestor inUse mproc pid₁ pid₂ nrProcs = .ok (some 0) ↔
      pid₁ ≠ pid₂ ∧ ∀ i, IsFirst inUse mproc pid₂ i →
        ¬MetBeforeInit mproc up pid₁ i ∧ ¬NeverMet mproc up pid₁ i) := by
  by_cases hne : pid₁ = pid₂
  · have hall : ∀ n, doCheckIfAncestor inUse mproc pid₁ pid₂ n = .ok (some 1) := fun n ↦ by
      rw [doCheckIfAncestor, if_pos (beq_iff_eq.mpr hne)]
      rfl
    exact ⟨fun n _ ↦ by rw [hall, hall], iff_of_true (hall _) (Or.inl hne),
      iff_of_false (fun hnone ↦ by simpa [hall] using hnone 0) fun h ↦ h.1 hne,
      iff_of_false (by simp [hall]) fun h ↦ h.1 hne⟩
  rcases @doCheckIfAncestor_cases _ inUse mproc _ _ hne with ⟨i, hi, hwalk⟩ | ⟨hnone, hall⟩
  · have huniq : ∀ Q : Fin nrProcs → Prop, (∃ j, IsFirst inUse mproc pid₂ j ∧ Q j) ↔ Q i := by
      intro Q
      constructor
      · rintro ⟨j, hj, hQ⟩
        exact hj.unique hi ▸ hQ
      · intro hQ
        exact ⟨i, hi, hQ⟩
    have hforall : ∀ Q : Fin nrProcs → Prop, (∀ j, IsFirst inUse mproc pid₂ j → Q j) ↔ Q i :=
      fun Q ↦ ⟨fun h ↦ h i hi, fun hQ j hj ↦ hi.unique hj ▸ hQ⟩
    simp only [hwalk, huniq, hforall]
    rcases walk_cases hup pid₁ i with ⟨k, hlt, hk, hmin, heq⟩ | ⟨hnot, heq⟩
    · have hstop : ∀ n, nrProcs ≤ n → walk mproc pid₁ n (i : ℕ)
          = .ok (some (if (mproc (up^[k + 1] i)).mpPid = pid₁ then 1 else 0)) := fun n hn ↦ by
        rw [heq, if_neg (by omega)]
      have hnever : ¬NeverMet mproc up pid₁ i := fun h ↦ neverMet_iff.mp h k hk
      have hends : ¬∀ n, walk mproc pid₁ n (i : ℕ) = .ok none := fun h ↦ by
        simpa [hstop nrProcs le_rfl] using h nrProcs
      refine ⟨fun n hn ↦ by rw [hstop n hn, hstop _ le_rfl], ?_, ?_, ?_⟩
      · rw [hstop _ le_rfl, metBeforeInit_iff hk hmin, or_iff_right hne]
        by_cases hpid : (mproc (up^[k + 1] i)).mpPid = pid₁
        · exact iff_of_true (by rw [if_pos hpid]) hpid
        · exact iff_of_false (by rw [if_neg hpid]; simp) hpid
      · exact iff_of_false hends fun h ↦ hnever h.2
      · rw [hstop _ le_rfl, metBeforeInit_iff hk hmin]
        by_cases hpid : (mproc (up^[k + 1] i)).mpPid = pid₁
        · exact iff_of_false (by rw [if_pos hpid]; simp) fun h ↦ h.2.1 hpid
        · exact iff_of_true (by rw [if_neg hpid]) ⟨hne, hpid, hnever⟩
    · have hnever : NeverMet mproc up pid₁ i := neverMet_iff.mpr hnot
      have hmet : ¬MetBeforeInit mproc up pid₁ i := by
        rintro ⟨k, hpid, -⟩
        exact (hnever _ ⟨k, rfl⟩).1 hpid
      refine ⟨fun n _ ↦ by rw [heq, heq], ?_, ?_, ?_⟩
      · exact iff_of_false (by simp [heq]) fun h ↦ h.elim hne hmet
      · exact iff_of_true heq ⟨hne, hnever⟩
      · exact iff_of_false (by simp [heq]) fun h ↦ h.2.2 hnever
  · refine ⟨fun n _ ↦ by rw [hall, hall], ?_, ?_, ?_⟩
    · refine iff_of_false (by simp [hall]) fun h ↦ h.elim hne ?_
      rintro ⟨i, hi, -⟩
      exact hnone i hi
    · refine iff_of_false (fun h ↦ by simpa [hall] using h 0) ?_
      rintro ⟨-, i, hi, -⟩
      exact hnone i hi
    · exact iff_of_true (hall _) ⟨hne, fun i hi ↦ absurd hi (hnone i)⟩

end Classified

/-- `init`, and two processes that are each other's parents. -/
def circleTable : Fin 3 → Mproc := ![⟨1, 0, 1⟩, ⟨5, 2, 1⟩, ⟨9, 1, 1⟩]

/-- Whether process 7 is an ancestor of one of them is not found out. -/
theorem doCheckIfAncestor_classified_circle : IsFirst 1 circleTable 9 2 ∧
    ∀ n, doCheckIfAncestor 1 circleTable 7 9 n = .ok none := by
  have hup : ∀ i, (circleTable i).mpParent.toInt = (![0, 2, 1] : Fin 3 → Fin 3) i := by decide
  have hfirst : IsFirst 1 circleTable 9 2 := ⟨by decide, rfl, by decide⟩
  have hcircle : ∀ k, (![0, 2, 1] : Fin 3 → Fin 3)^[k] 2 ≠ 0 := by
    intro k
    induction k with
    | zero => decide
    | succ k ih =>
      rw [Function.iterate_succ_apply']
      generalize (![0, 2, 1] : Fin 3 → Fin 3)^[k] 2 = j at ih
      revert j
      decide
  have hnever : NeverMet circleTable ![0, 2, 1] 7 2 := by
    rintro j ⟨k, rfl⟩
    have hne := hcircle (k + 1)
    generalize (![0, 2, 1] : Fin 3 → Fin 3)^[k + 1] 2 = j at hne
    revert j
    decide
  exact ⟨hfirst, (doCheckIfAncestor_classified hup 7 9).2.2.1.mpr ⟨by decide, 2, hfirst, hnever⟩⟩

end Pm

end MinixClipboard
