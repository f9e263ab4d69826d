import MinixClipboard.Fault
import Mathlib.Data.List.OfFn
import Mathlib.Tactic.Ring

/-!
# The stack of free ids

`stack.c`: an array of `STACK_SIZE` words and a pointer to the first free cell. The pointer is an
absolute address, so every function takes the address `a` at which the stack lies; `value` is the
first member of the structure, so `a` is also the address of `value[0]`.

`Stack.Holds a s ids` says that the stack at `a` represents the list `ids`, bottom first. The
specifications below are those of a bounded list under this relation, and nothing later looks at the
pointer again.
-/

namespace MinixClipboard

abbrev stackSize : ℕ := 100

/-- `struct Stack`. -/
structure Stack where
  /-- The cells. -/
  value : Fin stackSize → UInt32
  /-- The address of the first free cell. -/
  current : Addr

namespace Stack

/-- `lower_bound`, the address of `value[0]`. -/
def lowerBound (a : Addr) : Addr := a

/-- `upper_bound`, the address behind the last cell. -/
def upperBound (a : Addr) : Addr := a + 4 * 100

/-- The cell a pointer points to, if it points to one. -/
def cell (a p : Addr) : Option (Fin stackSize) :=
  if h : (p - a).toNat % 4 = 0 ∧ (p - a).toNat / 4 < stackSize then
    some ⟨(p - a).toNat / 4, h.2⟩
  else none

/-- `push`. A full stack drops the value without a word. -/
def push (value : UInt32) (a : Addr) (s : Stack) : Except Fault Stack :=
  if s.current ≠ upperBound a then
    match cell a s.current with
    | some k => .ok ⟨Function.update s.value k value, s.current + 4⟩
    | none => .error .pointer
  else .ok s

def isEmpty (a : Addr) (s : Stack) : Bool := s.current == lowerBound a

/-- `top`, which asserts that there is one. -/
def top (a : Addr) (s : Stack) : Except Fault UInt32 :=
  if isEmpty a s then .error .assertion
  else match cell a (s.current - 4) with
    | some k => .ok (s.value k)
    | none => .error .pointer

def pop (s : Stack) : Stack := { s with current := s.current - 4 }

/-- `init`: the identity permutation, filled to the brim. -/
def init (a : Addr) : Stack where
  value k := UInt32.ofNat k
  current := upperBound a

/-- The cells below `current`, bottom first. -/
def below (a : Addr) (s : Stack) : List UInt32 :=
  ((List.finRange stackSize).take ((s.current - a).toNat / 4)).map s.value

/-! ## The list a stack represents -/

/-- The stack at `a` lies in the address space, so that no two of its pointers coincide. -/
def Fits (a : Addr) : Prop := a.toNat + 4 * stackSize < 2 ^ 32

instance (a : Addr) : Decidable (Fits a) :=
  inferInstanceAs (Decidable (a.toNat + 4 * stackSize < 2 ^ 32))

/-- The stack at `a` represents `ids`, bottom first. -/
structure Holds (a : Addr) (s : Stack) (ids : List UInt32) : Prop where
  length_le : ids.length ≤ stackSize
  current : s.current.toNat = a.toNat + 4 * ids.length
  value : ∀ k (hk : k < ids.length), s.value ⟨k, hk.trans_le length_le⟩ = ids[k]

variable {a : Addr} {s : Stack} {ids : List UInt32} {v : UInt32}

theorem upperBound_toNat (ha : Fits a) : (upperBound a).toNat = a.toNat + 4 * stackSize := by
  change a.toNat + 400 < 2 ^ 32 at ha
  rw [upperBound, UInt32.toNat_add]
  change (a.toNat + 400) % 2 ^ 32 = a.toNat + 400
  omega

/-- The pointer to cell `k`. -/
theorem cell_of_toNat {p : Addr} {k : ℕ} (hp : p.toNat = a.toNat + 4 * k) (hk : k < stackSize) :
    cell a p = some ⟨k, hk⟩ := by
  have hlt := p.toNat_lt
  have hsub : (p - a).toNat = 4 * k := by
    rw [UInt32.toNat_sub_of_le, hp]
    · omega
    · rw [UInt32.le_iff_toNat_le]; omega
  have hdiv : 4 * k / 4 = k := by omega
  rw [cell, dif_pos]
  · simp only [hsub, hdiv]
  · rw [hsub]; omega

theorem toNat_add_four (h : s.current.toNat + 4 < 2 ^ 32) :
    (s.current + 4).toNat = s.current.toNat + 4 := by
  rw [UInt32.toNat_add]
  change (_ + 4) % 2 ^ 32 = _
  omega

theorem toNat_sub_four (h : 4 ≤ s.current.toNat) :
    (s.current - 4).toNat = s.current.toNat - 4 := by
  rw [UInt32.toNat_sub_of_le]
  · rfl
  · rw [UInt32.le_iff_toNat_le]; exact h

theorem isEmpty_iff (h : Holds a s ids) : isEmpty a s = true ↔ ids = [] := by
  rw [isEmpty, lowerBound, beq_iff_eq, ← UInt32.toNat_inj, h.current, ← List.length_eq_zero_iff]
  omega

theorem current_eq_upperBound_iff (ha : Fits a) (h : Holds a s ids) :
    s.current = upperBound a ↔ ids.length = stackSize := by
  rw [← UInt32.toNat_inj, h.current, upperBound_toNat ha]
  omega

theorem top_spec (h : Holds a s (ids ++ [v])) : top a s = .ok v := by
  have hlen := h.length_le
  have hcur := h.current
  rw [List.length_append, List.length_singleton] at hlen hcur
  have hne : ¬isEmpty a s = true := by rw [isEmpty_iff h]; simp
  have hcell : cell a (s.current - 4) = some ⟨ids.length, by omega⟩ := by
    refine cell_of_toNat ?_ _
    rw [toNat_sub_four (by omega)]
    omega
  rw [top, if_neg hne, hcell]
  have hval := h.value ids.length (by simp)
  simp only [hval, List.getElem_concat_length]

theorem pop_spec (h : Holds a s (ids ++ [v])) : Holds a (pop s) ids := by
  have hlen := h.length_le
  have hcur := h.current
  rw [List.length_append, List.length_singleton] at hlen hcur
  refine ⟨by omega, ?_, fun k hk ↦ ?_⟩
  · rw [pop, toNat_sub_four (by omega)]
    omega
  · have hval := h.value k (by simp; omega)
    rw [List.getElem_append_left hk] at hval
    exact hval

theorem push_spec (ha : Fits a) (h : Holds a s ids) (hlt : ids.length < stackSize) (v : UInt32) :
    ∃ s', push v a s = .ok s' ∧ Holds a s' (ids ++ [v]) := by
  have hne : s.current ≠ upperBound a := by
    rw [ne_eq, current_eq_upperBound_iff ha h]
    omega
  have hcur := h.current
  rw [Fits] at ha
  refine ⟨⟨Function.update s.value ⟨ids.length, hlt⟩ v, s.current + 4⟩, ?_, ?_⟩
  · rw [push, if_pos hne, cell_of_toNat hcur hlt]
  · refine ⟨by simp; omega, ?_, fun k hk ↦ ?_⟩
    · change (s.current + 4).toNat = _
      rw [toNat_add_four (by omega), List.length_append, List.length_singleton]
      omega
    · rw [List.length_append, List.length_singleton] at hk
      by_cases hkl : k = ids.length
      · subst hkl
        rw [List.getElem_concat_length rfl]
        exact Function.update_self ..
      · have hk' : k < ids.length := by omega
        rw [List.getElem_append_left hk', ← h.value k hk']
        exact Function.update_of_ne (by simpa [Fin.ext_iff] using hkl) ..

theorem init_spec (ha : Fits a) :
    Holds a (init a) ((List.range stackSize).map UInt32.ofNat) := by
  refine ⟨by simp, ?_, fun k hk ↦ ?_⟩
  · rw [init, upperBound_toNat ha, List.length_map, List.length_range]
  · rw [List.getElem_map, List.getElem_range, init]

/-- The list a stack represents is what lies below its pointer. -/
theorem below_eq (h : Holds a s ids) : below a s = ids := by
  have hlen := h.length_le
  have hcur := h.current
  have hlt := s.current.toNat_lt
  have hsub : (s.current - a).toNat / 4 = ids.length := by
    rw [UInt32.toNat_sub_of_le, hcur]
    · omega
    · rw [UInt32.le_iff_toNat_le]; omega
  refine List.ext_getElem ?_ fun k hk hk' ↦ ?_
  · rw [below, hsub, List.length_map, List.length_take, List.length_finRange]
    omega
  · simp only [below, List.getElem_map, List.getElem_take, List.getElem_finRange]
    exact h.value k hk'

theorem Holds.bounds (ha : Fits a) (h : Holds a s ids) :
    lowerBound a ≤ s.current ∧ s.current ≤ upperBound a := by
  have hlen := h.length_le
  rw [UInt32.le_iff_toNat_le, UInt32.le_iff_toNat_le, h.current, upperBound_toNat ha, lowerBound]
  omega

end Stack

end MinixClipboard
