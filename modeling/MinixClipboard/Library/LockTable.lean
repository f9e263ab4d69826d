import MinixClipboard.Library.Transition
import Mathlib.Data.Fintype.Card
import Mathlib.Logic.Function.Basic

/-!
# Tables of locked slots

What a clipboard is for, with everything else left out. A table maps each id to nothing or to a
value, and a value may be held by one principal. A value is put under a free id, a principal may
acquire one value that nobody holds, giving up the one it held before, and a principal takes away
the value it holds.

Ids, principals and values are arbitrary types. No step lets a principal hold two values
(`Step.exclusive`). Over a whole run, every take finds the value of exactly one put, the latest one
under its id (`exists_source_of_event`, `Sources.take_unique`), and the puts are the takes and what
is still stored (`countP_isPut_of_run`).
-/

/-- A value in the table and the principal that holds it, if any. -/
@[ext] structure Slot (P V : Type*) where
  /-- The stored value. -/
  value : V
  /-- Who holds it. -/
  holder : Option P

/-- A table of slots. -/
abbrev LockTable (ι P V : Type*) := ι → Option (Slot P V)

namespace LockTable

variable {ι P V : Type*}

def empty : LockTable ι P V := fun _ ↦ none

/-- What is stored, whoever holds it. -/
def value (t : LockTable ι P V) (i : ι) : Option V := (t i).map Slot.value

theorem value_update [DecidableEq ι] (t : LockTable ι P V) (i : ι) (a : Option (Slot P V)) :
    value (Function.update t i a) = Function.update (value t) i (a.map Slot.value) := by
  funext j
  exact Function.apply_update (fun _ ↦ Option.map Slot.value) t i a j

/-- No principal holds two values. -/
def Exclusive (t : LockTable ι P V) : Prop :=
  ∀ ⦃i j : ι⦄ ⦃p : P⦄ ⦃v w : V⦄, t i = some ⟨v, some p⟩ → t j = some ⟨w, some p⟩ → i = j

/-- What can happen to a table. -/
inductive Action (ι P V : Type*)
  /-- A value is stored under a free id. -/
  | put (i : ι) (v : V)
  /-- A principal acquires the value of an id, and gives up what it held. -/
  | acquire (p : P) (i : ι)
  /-- A principal gives up what it holds. -/
  | release (p : P)
  /-- A principal takes away the value it holds. -/
  | take (p : P) (i : ι)
  /-- Nothing happens. -/
  | idle

/-- The actions a principal performs on its own hold. -/
def Action.By (p : P) : Action ι P V → Prop
  | .put _ _ => False
  | .acquire q _ => q = p
  | .release q => q = p
  | .take q _ => q = p
  | .idle => False

section Release

variable [DecidableEq P] {t : LockTable ι P V}

/-- The table once `p` holds nothing. -/
def release (p : P) (t : LockTable ι P V) : LockTable ι P V := fun i ↦
  (t i).map fun e ↦ if e.holder = some p then { e with holder := none } else e

@[simp] theorem value_release (p : P) (t : LockTable ι P V) : value (release p t) = value t := by
  funext i
  rw [value, release, value, Option.map_map]
  congr 1
  funext e
  simp only [Function.comp]
  split <;> rfl

theorem release_of_ne {p q : P} {i : ι} {v : V} (hqp : q ≠ p) (hi : t i = some ⟨v, some q⟩) :
    release p t i = some ⟨v, some q⟩ := by
  rw [release, hi, Option.map_some, if_neg]
  simpa using hqp

/-- What somebody holds after a release, somebody else held before. -/
theorem of_release_eq {p q : P} {i : ι} {v : V} (hi : release p t i = some ⟨v, some q⟩) :
    q ≠ p ∧ t i = some ⟨v, some q⟩ := by
  rw [release, Option.map_eq_some_iff] at hi
  obtain ⟨⟨w, h⟩, he, hite⟩ := hi
  by_cases hp : h = some p
  · rw [if_pos hp] at hite
    simp at hite
  · rw [if_neg hp] at hite
    rw [hite] at he
    refine ⟨?_, he⟩
    rintro rfl
    exact hp (by simpa using congrArg Slot.holder hite)

theorem release_eq_self {p : P} (h : ∀ i v, t i ≠ some ⟨v, some p⟩) : release p t = t := by
  funext i
  rw [release]
  cases hi : t i with
  | none => rfl
  | some e =>
    rw [Option.map_some, if_neg fun hp ↦ ?_]
    exact h i e.value (by rw [hi, ← hp])

theorem Exclusive.release (ht : Exclusive t) (p : P) : Exclusive (release p t) :=
  fun _ _ _ _ _ hi hj ↦ ht (of_release_eq hi).2 (of_release_eq hj).2

end Release

section Step

variable [DecidableEq ι]

theorem Exclusive.update {t : LockTable ι P V} (ht : Exclusive t) {k : ι} {e : Option (Slot P V)}
    (he : ∀ v p, e = some ⟨v, some p⟩ → ∀ i w, t i ≠ some ⟨w, some p⟩) :
    Exclusive (Function.update t k e) := by
  intro i j q v w hi hj
  by_cases hik : i = k <;> by_cases hjk : j = k
  · rw [hik, hjk]
  · subst hik
    rw [Function.update_self] at hi
    rw [Function.update_of_ne hjk] at hj
    exact absurd hj (he v q hi j w)
  · subst hjk
    rw [Function.update_self] at hj
    rw [Function.update_of_ne hik] at hi
    exact absurd hi (he w q hj i v)
  · rw [Function.update_of_ne hik] at hi
    rw [Function.update_of_ne hjk] at hj
    exact ht hi hj

variable [DecidableEq P]

/-- The steps of a table. -/
inductive Step : LockTable ι P V → Action ι P V → LockTable ι P V → Prop
  | put {t : LockTable ι P V} {i : ι} (v : V) :
      t i = none → Step t (.put i v) (Function.update t i (some ⟨v, none⟩))
  | acquire {t : LockTable ι P V} {p : P} {i : ι} {v : V} :
      release p t i = some ⟨v, none⟩ →
        Step t (.acquire p i) (Function.update (release p t) i (some ⟨v, some p⟩))
  | release (t : LockTable ι P V) (p : P) : Step t (.release p) (release p t)
  | take {t : LockTable ι P V} {p : P} {i : ι} {v : V} :
      t i = some ⟨v, some p⟩ → Step t (.take p i) (Function.update t i none)
  | idle (t : LockTable ι P V) : Step t .idle t

variable {t t' : LockTable ι P V} {a : Action ι P V}

theorem Step.of_take {p : P} {i : ι} (h : Step t (.take p i) t') :
    (∃ v, t i = some ⟨v, some p⟩) ∧ t' = Function.update t i none := by
  cases h with
  | take hi => exact ⟨⟨_, hi⟩, rfl⟩

/-- **Exclusivity is kept by every step.** An acquire gives the old hold up before it takes the new
one, so it never leaves a principal with two. -/
theorem Step.exclusive (h : Step t a t') (ht : Exclusive t) : Exclusive t' := by
  cases h with
  | put v _ => exact ht.update (by simp)
  | @acquire p k v _ =>
    refine (ht.release p).update fun w q hq i u hi ↦ (of_release_eq hi).1 ?_
    simpa using (congrArg (Option.map Slot.holder) hq).symm
  | release p => exact ht.release p
  | take _ => exact ht.update (by simp)
  | idle => exact ht

/-- **A hold is stable.** Whatever the others do, what a principal holds stays as it is. -/
theorem Step.holds (h : Step t a t') {p : P} {i : ι} {v : V} (hi : t i = some ⟨v, some p⟩)
    (hby : ¬a.By p) : t' i = some ⟨v, some p⟩ := by
  cases h with
  | @put k x hk =>
    have hik : i ≠ k := by rintro rfl; rw [hk] at hi; simp at hi
    rw [Function.update_of_ne hik, hi]
  | @acquire q k x hk =>
    have hrel : LockTable.release q t i = some ⟨v, some p⟩ :=
      release_of_ne (fun hpq ↦ hby hpq.symm) hi
    have hik : i ≠ k := by rintro rfl; rw [hk] at hrel; simp at hrel
    rw [Function.update_of_ne hik, hrel]
  | release q => exact release_of_ne (fun hpq ↦ hby hpq.symm) hi
  | @take q k x hk =>
    have hik : i ≠ k := by
      rintro rfl
      rw [hk] at hi
      exact hby (show q = p by simpa using congrArg (Option.map Slot.holder) hi)
    rw [Function.update_of_ne hik, hi]
  | idle => exact hi

/-- **Nobody is given a hold.** What a principal holds without having acted, it held before. -/
theorem Step.of_holds (h : Step t a t') {p : P} {i : ι} {v : V} (hi : t' i = some ⟨v, some p⟩)
    (hby : ¬a.By p) : t i = some ⟨v, some p⟩ := by
  cases h with
  | @put k x hk =>
    have hik : i ≠ k := by rintro rfl; simp at hi
    rwa [Function.update_of_ne hik] at hi
  | @acquire q k x hk =>
    have hik : i ≠ k := by
      rintro rfl
      rw [Function.update_self] at hi
      exact hby (show q = p by simpa using congrArg (Option.map Slot.holder) hi)
    rw [Function.update_of_ne hik] at hi
    exact (of_release_eq hi).2
  | release q => exact (of_release_eq hi).2
  | @take q k x hk =>
    have hik : i ≠ k := by rintro rfl; simp at hi
    rwa [Function.update_of_ne hik] at hi
  | idle => exact hi

/-- What a principal holds stays as it is until the principal itself acts. -/
theorem holds_of_run {t₀ : LockTable ι P V} {h : List (Event (LockTable ι P V) (Action ι P V))}
    (hrun : Run Step t₀ h t) {p : P} {i : ι} {v : V} (hi : t₀ i = some ⟨v, some p⟩)
    (hby : ∀ e ∈ h, ¬e.label.By p) : t i = some ⟨v, some p⟩ :=
  hrun.invariant_of (P := fun t : LockTable ι P V ↦ t i = some ⟨v, some p⟩) hi
    (fun _ ht hq hs ↦ hs.holds ht hq) hby

end Step

/-! ## What a history says of the values -/

/-- The actions that change what is stored under an id. -/
def Action.Touches (i : ι) : Action ι P V → Prop
  | .put j _ => j = i
  | .take _ j => j = i
  | _ => False

/-- The action at index `k` of a history stored `v` under `i`, and nothing touched `i` between it
and index `j`. -/
structure Sources (h : List (Event (LockTable ι P V) (Action ι P V))) (i : ι) (v : V) (k j : ℕ) :
    Prop where
  lt : k < j
  put : (h[k]?).map Event.label = some (.put i v)
  untouched : ∀ m, k < m → m < j → ∀ e, h[m]? = some e → ¬e.label.Touches i

section Sources

variable {h : List (Event (LockTable ι P V) (Action ι P V))}

theorem Sources.snoc {i : ι} {v : V} {k : ℕ} (hs : Sources h i v k h.length)
    {e : Event (LockTable ι P V) (Action ι P V)} (he : ¬e.label.Touches i) :
    Sources (h ++ [e]) i v k (h ++ [e]).length := by
  have hlt := hs.lt
  refine ⟨by simp; omega, by rw [List.getElem?_append_left hlt]; exact hs.put, ?_⟩
  intro m hkm hm f hf
  rcases Nat.lt_or_ge m h.length with hmh | hmh
  · rw [List.getElem?_append_left hmh] at hf
    exact hs.untouched m hkm hmh f hf
  · rw [List.length_append, List.length_singleton] at hm
    rw [show m = h.length by omega, List.getElem?_concat_length, Option.some_inj] at hf
    exact hf ▸ he

/-- **No put is taken twice.** Two takes with the same source are one take. -/
theorem Sources.take_unique {i i' : ι} {v v' : V} {k j j' : ℕ} (hs : Sources h i v k j)
    (hs' : Sources h i' v' k j') {e e' : Event (LockTable ι P V) _} (he : h[j]? = some e)
    (he' : h[j']? = some e') {p p' : P} (hl : e.label = .take p i) (hl' : e'.label = .take p' i') :
    j = j' := by
  obtain ⟨rfl, -⟩ : i = i' ∧ v = v' := by simpa using hs.put.symm.trans hs'.put
  rcases Nat.lt_trichotomy j j' with hlt | heq | hgt
  · exact absurd (by rw [hl]; exact rfl) (hs'.untouched j hs.lt hlt e he)
  · exact heq
  · exact absurd (by rw [hl']; exact rfl) (hs.untouched j' hs'.lt hgt e' he')

/-- The source is the latest put under its id. -/
theorem Sources.eq_of_latest {i : ι} {v v' : V} {k k' j : ℕ} (hs : Sources h i v k j)
    (hlt : k' < j) (hput : (h[k']?).map Event.label = some (.put i v'))
    (hlatest : ∀ m, k' < m → m < j → ∀ w, (h[m]?).map Event.label ≠ some (.put i w)) : k = k' := by
  rcases Nat.lt_trichotomy k k' with hkk | heq | hkk
  · obtain ⟨e, he, hl⟩ := Option.map_eq_some_iff.mp hput
    exact absurd (by rw [hl]; exact rfl) (hs.untouched k' hkk hlt e he)
  · exact heq
  · exact absurd hs.put (hlatest k hkk hs.lt v)

end Sources

section History

variable [DecidableEq ι] [DecidableEq P] {t t' : LockTable ι P V} {a : Action ι P V}
variable {h : List (Event (LockTable ι P V) (Action ι P V))}

theorem Step.value_of_not_touches (hs : Step t a t') {i : ι} (ha : ¬a.Touches i) :
    value t' i = value t i := by
  cases hs with
  | @put k x hk => rw [value_update, Function.update_of_ne fun hik ↦ ha hik.symm]
  | @acquire q k x hk =>
    -- the value acquired is stored where it was, now with a holder
    rw [← value_release q t, value_update]
    by_cases hik : i = k
    · rw [hik, Function.update_self, value, hk]
      rfl
    · rw [Function.update_of_ne hik]
  | release q => rw [value_release]
  | @take q k x hk => rw [value_update, Function.update_of_ne fun hik ↦ ha hik.symm]
  | idle => rfl

theorem Step.value_of_ne_none (hs : Step t a t') {i : ι} {v : V} (hi : value t i = some v)
    (hi' : t' i ≠ none) : value t' i = some v := by
  by_cases htouch : a.Touches i
  · cases hs with
    | @put j x hj =>
      obtain rfl : j = i := htouch
      simp [value, hj] at hi
    | @take q j x hj =>
      obtain rfl : j = i := htouch
      simp at hi'
    | acquire _ => exact htouch.elim
    | release _ => exact htouch.elim
    | idle => exact htouch.elim
  · rw [hs.value_of_not_touches htouch, hi]

/-- **Where a stored value comes from.** Along any run from the empty table, every stored value was
stored by a put after which nothing touched its id. -/
theorem exists_source_of_run (hrun : Run Step empty h t) {i : ι} {v : V} (hi : value t i = some v) :
    ∃ k, Sources h i v k h.length := by
  induction hrun with
  | nil => simp [value, empty] at hi
  | @snoc h s s' l _ hs ih =>
    by_cases htouch : l.Touches i
    · cases hs with
      | @put j x hj =>
        obtain rfl : j = i := htouch
        obtain rfl : x = v := by simpa [value] using hi
        refine ⟨h.length, by simp, by simp, fun m hm hm' ↦ ?_⟩
        rw [List.length_append, List.length_singleton] at hm'
        omega
      | @take q j x hj =>
        obtain rfl : j = i := htouch
        simp [value] at hi
      | acquire _ => exact htouch.elim
      | release _ => exact htouch.elim
      | idle => exact htouch.elim
    · obtain ⟨k, hk⟩ := ih (by rwa [hs.value_of_not_touches htouch] at hi)
      exact ⟨k, hk.snoc htouch⟩

/-- **Every step finds what the latest put stored.** In particular a take does. -/
theorem exists_source_of_event (hrun : Run Step empty h t) {j : ℕ} {e : Event (LockTable ι P V) _}
    (hj : h[j]? = some e) {i : ι} {v : V} (hv : value e.pre i = some v) :
    ∃ k, Sources h i v k j := by
  have hjlt : j < h.length := (List.getElem?_eq_some_iff.mp hj).1
  obtain ⟨k, hk⟩ := exists_source_of_run (hrun.event hj).1 hv
  rw [List.length_take, Nat.min_eq_left (Nat.le_of_lt hjlt)] at hk
  refine ⟨k, hk.lt, ?_, fun m hkm hmj f hf ↦ ?_⟩
  · rw [← hk.put, List.getElem?_take_of_lt hk.lt]
  · exact hk.untouched m hkm hmj f (by rwa [List.getElem?_take_of_lt hmj])

end History

/-! ## Counting -/

section Count

variable [Fintype ι]

def live (t : LockTable ι P V) : Finset ι := Finset.univ.filter fun i ↦ (t i).isSome

def Action.isPut : Action ι P V → Bool
  | .put _ _ => true
  | _ => false

def Action.isTake : Action ι P V → Bool
  | .take _ _ => true
  | _ => false

theorem mem_live {t : LockTable ι P V} {i : ι} : i ∈ live t ↔ (t i).isSome := by
  rw [live, Finset.mem_filter, and_iff_right (Finset.mem_univ i)]

theorem live_release [DecidableEq P] {t : LockTable ι P V} (p : P) :
    live (release p t) = live t := by
  ext i
  rw [mem_live, mem_live, release, Option.isSome_map]

variable [DecidableEq ι] {t t' : LockTable ι P V} {a : Action ι P V}

theorem live_update_some {i : ι} {e : Slot P V} :
    live (Function.update t i (some e)) = insert i (live t) := by
  ext j
  rw [mem_live, Finset.mem_insert, mem_live]
  by_cases hj : j = i
  · subst hj; simp
  · rw [Function.update_of_ne hj]; simp [hj]

theorem live_update_none {i : ι} : live (Function.update t i none) = (live t).erase i := by
  ext j
  rw [mem_live, Finset.mem_erase, mem_live]
  by_cases hj : j = i
  · subst hj; simp
  · rw [Function.update_of_ne hj]; simp [hj]

variable [DecidableEq P]

/-- One step moves the number of stored values by what it puts and what it takes. -/
theorem Step.card_live (h : Step t a t') :
    (live t).card + a.isPut.toNat = (live t').card + a.isTake.toNat := by
  cases h with
  | @put i v hi =>
    have hmem : i ∉ live t := by rw [mem_live, hi]; simp
    rw [live_update_some, Finset.card_insert_of_notMem hmem]
    rfl
  | @acquire p i v hi =>
    have hmem : i ∈ live t := by
      rw [← live_release p, mem_live, hi]; rfl
    rw [live_update_some, live_release, Finset.insert_eq_of_mem hmem]
    rfl
  | release p => rw [live_release]; rfl
  | @take p i v hi =>
    have hmem : i ∈ live t := by rw [mem_live, hi]; rfl
    rw [live_update_none, ← Finset.card_erase_add_one hmem]
    rfl
  | idle => rfl

/-- **Puts minus takes.** Along a run from the empty table, the puts are the takes and what is
still stored. -/
theorem countP_isPut_of_run {h : List (Event (LockTable ι P V) (Action ι P V))}
    (hrun : Run Step empty h t) :
    h.countP (·.label.isPut) = h.countP (·.label.isTake) + (live t).card := by
  induction hrun with
  | nil => simp [live, empty]
  | @snoc h s s' l _ hs ih =>
    have hcard := hs.card_live
    rw [List.countP_append, List.countP_append, List.countP_singleton, List.countP_singleton, ih]
    cases hp : l.isPut <;> cases ht : l.isTake <;> simp_all <;> omega

end Count

end LockTable
