import Mathlib.Data.Fintype.Card
import Mathlib.Logic.Function.Iterate

/-!
# Following parents

A table of parents is a function `f`, and a root is one of its fixed points. This file is about the
elements from which following parents leads to a root: they reach it in fewer steps than there are
elements, since a shortest way repeats none, and no two of them are above each other, save the root
itself.
-/

namespace Forest

variable {α : Type*} {f : α → α} {r a b c : α}

/-- Following parents from `a` on leads to `b`, after at least one step. -/
def Above (f : α → α) (b a : α) : Prop := ∃ k, f^[k + 1] a = b

theorem Above.trans (hcb : Above f c b) (hba : Above f b a) : Above f c a := by
  obtain ⟨k, rfl⟩ := hcb
  obtain ⟨m, rfl⟩ := hba
  refine ⟨k + 1 + m, ?_⟩
  rw [Nat.add_assoc, Function.iterate_add_apply]

theorem above_iff : Above f b a ↔ f a = b ∨ Above f b (f a) := by
  constructor
  · rintro ⟨k, hk⟩
    cases k with
    | zero => exact Or.inl hk
    | succ k => exact Or.inr ⟨k, hk⟩
  · rintro (h | ⟨k, hk⟩)
    · exact ⟨0, h⟩
    · exact ⟨k + 1, hk⟩

theorem eq_of_above_root (hr : f r = r) (h : Above f b r) : b = r := by
  obtain ⟨k, rfl⟩ := h
  exact Function.iterate_fixed hr _

/-- The first element with a property, if there is one, is found in fewer steps than there are
elements. -/
theorem exists_first [Fintype α] {P : α → Prop} (h : ∃ k, P (f^[k] a)) :
    ∃ k < Fintype.card α, P (f^[k] a) ∧ ∀ m < k, ¬P (f^[m] a) := by
  classical
  refine ⟨Nat.find h, ?_, Nat.find_spec h, fun m hm ↦ Nat.find_min h hm⟩
  -- the elements up to it are distinct: where two are equal, the way could be cut short
  have hinj : Function.Injective fun m : Fin (Nat.find h + 1) ↦ f^[m] a := by
    have hlt : ∀ i j, i < j → j ≤ Nat.find h → f^[i] a ≠ f^[j] a := by
      intro i j hij hj heq
      refine Nat.find_min h (m := Nat.find h - j + i) (by omega) ?_
      rw [Function.iterate_add_apply, heq, ← Function.iterate_add_apply, Nat.sub_add_cancel hj]
      exact Nat.find_spec h
    intro i j heq
    rcases Nat.lt_trichotomy i j with hij | hij | hij
    · exact absurd heq (hlt i j hij (by omega))
    · exact Fin.ext hij
    · exact absurd heq.symm (hlt j i hij (by omega))
  have hcard := Fintype.card_le_of_injective _ hinj
  rw [Fintype.card_fin] at hcard
  omega

theorem exists_shortest [Fintype α] (h : ∃ k, f^[k] a = r) :
    ∃ k < Fintype.card α, f^[k] a = r ∧ ∀ m < k, f^[m] a ≠ r :=
  exists_first (P := (· = r)) h

theorem eq_root_of_above (hr : f r = r) (hreach : ∃ n, f^[n] a = r) (hba : Above f b a)
    (hab : Above f a b) : a = r := by
  obtain ⟨k, hk⟩ := hab.trans hba
  obtain ⟨n, hn⟩ := hreach
  have hround : f^[(k + 1) * n] a = a := by
    rw [Function.iterate_mul]
    exact Function.iterate_fixed hk n
  rw [← hround, Nat.succ_mul, Function.iterate_add_apply, hn]
  exact (Function.iterate_fixed hr _).symm ▸ rfl

end Forest
