import Mathlib.Algebra.Group.Defs
import Mathlib.Logic.Function.Basic

/-!
# A heap of blocks

The part of the C heap that a program with `malloc`, `free` and `memcpy` can observe: a partial map
from block addresses to block contents. Which address an allocation returns, and whether it
succeeds, is not determined by the program; it is an argument `choice` here, and a choice that is
not a fresh address counts as a failed allocation. Every behaviour of a correct allocator is then
some choice, and no law about the allocator has to be assumed.

`free`, `store` and `load` are partial: they have no result where the C program would touch memory
that no live block owns. Touching nothing at all is always allowed, also through `0`.
-/

/-- The live blocks, by address. -/
abbrev Heap (A B : Type*) := A → Option (List B)

namespace Heap

variable {A B : Type*}

/-! ## Reading and writing blocks -/

/-- What the block at `a` holds; nothing, if there is none. -/
def contents (h : Heap A B) (a : A) : List B := (h a).getD []

/-- `memcpy` of `n` cells out of the block at `a`. -/
def load (a : A) (n : ℕ) (h : Heap A B) : Option (List B) :=
  if n = 0 then some []
  else (h a).bind fun block ↦ if n ≤ block.length then some (block.take n) else none

variable {h : Heap A B} {a b : A}

theorem load_contents : load a (h.contents a).length h = some (h.contents a) := by
  by_cases hlen : (h.contents a).length = 0
  · rw [load, if_pos hlen, List.length_eq_zero_iff.mp hlen]
  · cases ha : h a with
    | none => simp [contents, ha] at hlen
    | some block =>
      rw [load, if_neg hlen, ha, contents, ha, Option.bind_some, Option.getD_some,
        if_pos (Nat.le_refl _), List.take_length]

variable [DecidableEq A] {bs : List B}

/-- `memcpy` into the block at `a`. -/
def store (a : A) (bs : List B) (h : Heap A B) : Option (Heap A B) :=
  if bs.length = 0 then some h
  else (h a).bind fun block ↦
    if bs.length ≤ block.length then some (Function.update h a (some (bs ++ block.drop bs.length)))
    else none

theorem store_of_length_eq {block : List B} (ha : h a = some block)
    (hlen : bs.length = block.length) : store a bs h = some (Function.update h a (some bs)) := by
  by_cases hbs : bs.length = 0
  · rw [List.length_eq_zero_iff.mp hbs, List.length_nil] at hlen
    obtain rfl : block = [] := List.length_eq_zero_iff.mp hlen.symm
    rw [store, if_pos hbs, List.length_eq_zero_iff.mp hbs, ← ha, Function.update_eq_self]
  · rw [store, if_neg hbs, ha, Option.bind_some, if_pos (Nat.le_of_eq hlen), hlen, List.drop_length,
      List.append_nil]

theorem store_of_none (ha : h a = none) :
    store a bs h = if bs.length = 0 then some h else none := by
  rw [store, ha, Option.bind_none]

@[simp] theorem contents_update_self {e : Option (List B)} :
    contents (Function.update h a e) a = e.getD [] := by
  rw [contents, Function.update_self]

theorem isSome_store {h' : Heap A B} (hstore : store a bs h = some h') (b : A) :
    (h' b).isSome = (h b).isSome := by
  rw [store] at hstore
  split at hstore
  · obtain rfl := Option.some_inj.mp hstore
    rfl
  obtain ⟨block, ha, hite⟩ := Option.bind_eq_some_iff.mp hstore
  obtain ⟨-, hupd⟩ := Option.ite_none_right_eq_some.mp hite
  obtain rfl := Option.some_inj.mp hupd
  by_cases hba : b = a
  · rw [hba, Function.update_self, ha]
    rfl
  · rw [Function.update_of_ne hba]

/-! ## Allocating and freeing -/

section Allocation

variable [Zero A]

/-- Whether `malloc` may return this address: not `0`, and no live block is there. -/
def Fresh (h : Heap A B) (a : A) : Prop := a ≠ 0 ∧ h a = none

instance (h : Heap A B) (a : A) : Decidable (h.Fresh a) :=
  inferInstanceAs (Decidable (a ≠ 0 ∧ h a = none))

/-- The outcomes of an allocation that are a success. -/
def Succeeds (h : Heap A B) (choice : Option A) : Prop := ∃ a, choice = some a ∧ h.Fresh a

/-- `malloc`: the address of a new block of `n` cells, or `0`. What the cells hold before the first
store is of no interest; they are filled with `junk`. -/
def malloc (junk : B) (choice : Option A) (n : ℕ) (h : Heap A B) : A × Heap A B :=
  match choice with
  | some a => if h.Fresh a then (a, Function.update h a (some (List.replicate n junk))) else (0, h)
  | none => (0, h)

/-- `free`. Only a live block can be freed; `0` is left alone. -/
def free (a : A) (h : Heap A B) : Option (Heap A B) :=
  if a = 0 then some h
  else if (h a).isSome then some (Function.update h a none)
  else none

theorem malloc_of_fresh {junk : B} {n : ℕ} (ha : h.Fresh a) :
    malloc junk (some a) n h = (a, Function.update h a (some (List.replicate n junk))) := if_pos ha

theorem malloc_of_not_succeeds {junk : B} {choice : Option A} {n : ℕ}
    (hc : ¬h.Succeeds choice) : malloc junk choice n h = (0, h) := by
  cases choice with
  | none => rfl
  | some a => exact if_neg fun ha ↦ hc ⟨a, rfl, ha⟩

theorem succeeds_of_malloc_ne_zero {junk : B} {choice : Option A} {n : ℕ}
    (ha : (malloc junk choice n h).1 ≠ 0) : h.Succeeds choice := by
  by_contra hc
  exact ha (by rw [malloc_of_not_succeeds hc])

theorem free_of_isSome (ha₀ : a ≠ 0) (ha : (h a).isSome) :
    free a h = some (Function.update h a none) := by
  rw [free, if_neg ha₀, if_pos ha]

@[simp] theorem free_zero : free 0 h = some h := if_pos rfl

/-- A block can be freed, and nothing but it is. -/
theorem free_spec (hnull : h 0 = none) (ha : a ≠ 0 → (h a).isSome) :
    ∃ h', h.free a = some h' ∧ h' 0 = none ∧ ∀ b, b ≠ a ∨ b = 0 → h' b = h b := by
  by_cases ha₀ : a = 0
  · exact ⟨h, by rw [ha₀, free_zero], hnull, fun _ _ ↦ rfl⟩
  · refine ⟨_, free_of_isSome ha₀ (ha ha₀), ?_, fun b hb ↦ ?_⟩
    · rw [Function.update_of_ne (Ne.symm ha₀), hnull]
    · refine Function.update_of_ne ?_ ..
      rintro rfl
      exact hb.elim (fun hne ↦ hne rfl) ha₀

/-- What it takes to put `bs` on the heap: the address they are found at afterwards, and the heap
then. Nothing else on the heap changes. -/
structure Places (h : Heap A B) (bs : List B) (a : A) (h' : Heap A B) : Prop where
  contents : h'.contents a = bs
  frame : ∀ b, b ≠ a → h' b = h b
  fresh : a ≠ 0 → h a = none ∧ (h' a).isSome
  same : a = 0 → h' = h

/-- **Allocate, then fill.** A successful allocation places the cells. A failed one does, too, if
there are no cells to place; otherwise the copy goes to `0`. -/
theorem store_malloc (hnull : h 0 = none) (junk : B) (choice : Option A) (bs : List B) :
    (∃ h', (malloc junk choice bs.length h).2.store (malloc junk choice bs.length h).1 bs
      = some h' ∧
      Places h bs (malloc junk choice bs.length h).1 h' ∧
      (h.Succeeds choice → (malloc junk choice bs.length h).1 ≠ 0)) ∨
    ¬h.Succeeds choice ∧ bs.length ≠ 0 ∧
      (malloc junk choice bs.length h).2.store (malloc junk choice bs.length h).1 bs = none := by
  by_cases hc : h.Succeeds choice
  · obtain ⟨a, rfl, ha⟩ := hc
    left
    rw [malloc_of_fresh ha]
    refine ⟨Function.update h a (some bs), ?_, ⟨?_, fun b hb ↦ ?_, fun _ ↦ ⟨ha.2, ?_⟩, ?_⟩,
      fun _ ↦ ha.1⟩
    · rw [store_of_length_eq (Function.update_self ..) (by simp), Function.update_idem]
    · rw [contents_update_self, Option.getD_some]
    · exact Function.update_of_ne hb ..
    · rw [Function.update_self]; rfl
    · exact fun h₀ ↦ absurd h₀ ha.1
  · rw [malloc_of_not_succeeds hc, store_of_none hnull]
    by_cases hbs : bs.length = 0
    · left
      refine ⟨h, if_pos hbs, ⟨?_, fun _ _ ↦ rfl, fun h₀ ↦ absurd rfl h₀, fun _ ↦ rfl⟩,
        fun h₀ ↦ absurd h₀ hc⟩
      rw [contents, hnull, List.length_eq_zero_iff.mp hbs, Option.getD_none]
    · exact Or.inr ⟨hc, hbs, if_neg hbs⟩

/-! ### Which blocks are live -/

theorem isSome_malloc {junk : B} {choice : Option A} {n : ℕ} {b : A}
    (hb : ((malloc junk choice n h).2 b).isSome) :
    (h b).isSome ∨ b = (malloc junk choice n h).1 := by
  by_cases hc : h.Succeeds choice
  · obtain ⟨a, rfl, ha⟩ := hc
    rw [malloc_of_fresh ha] at hb ⊢
    simp only [] at hb ⊢
    by_cases hba : b = a
    · exact Or.inr hba
    · exact Or.inl (by rwa [Function.update_of_ne hba] at hb)
  · rw [malloc_of_not_succeeds hc] at hb
    exact Or.inl hb

theorem malloc_null {junk : B} {choice : Option A} {n : ℕ} (hnull : h 0 = none) :
    (malloc junk choice n h).2 0 = none := by
  by_cases hc : h.Succeeds choice
  · obtain ⟨a, rfl, ha⟩ := hc
    rw [malloc_of_fresh ha]
    exact (Function.update_of_ne (Ne.symm ha.1) ..).trans hnull
  · rwa [malloc_of_not_succeeds hc]

theorem isSome_of_free {h' : Heap A B} (hfree : free a h = some h') {b : A}
    (hb : (h' b).isSome) : (h b).isSome ∧ (a ≠ 0 → b ≠ a) := by
  rw [free] at hfree
  split at hfree
  · obtain rfl := Option.some_inj.mp hfree
    exact ⟨hb, fun ha ↦ absurd ‹a = 0› ha⟩
  · obtain ⟨-, hupd⟩ := Option.ite_none_right_eq_some.mp hfree
    obtain rfl := Option.some_inj.mp hupd
    have hba : b ≠ a := by
      rintro rfl
      simp at hb
    rw [Function.update_of_ne hba] at hb
    exact ⟨hb, fun _ ↦ hba⟩

end Allocation

end Heap
