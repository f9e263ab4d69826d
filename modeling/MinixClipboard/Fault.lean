import MinixClipboard.Library.Heap
import Mathlib.Data.List.GetD
import Mathlib.Data.UInt

/-!
# Words, addresses and faults

The machine the sources are written for, as far as they can see it: 32-bit words, 32-bit addresses,
signed `char`s, and the ways a C program can leave the language. A fault ends the driver; nothing
is served after it.
-/

namespace MinixClipboard

/-- `char` is signed on the i386. -/
abbrev CChar := Int8

/-- A machine address. `0` is `NULL`. -/
abbrev Addr := UInt32

/-- The heap of the driver process. -/
abbrev CHeap := Heap Addr CChar

/-- How a C function can fail to return. -/
inductive Fault
  /-- A failed `assert`. -/
  | assertion
  /-- An access `entries[i]` outside the table. -/
  | index (i : ℤ)
  /-- An access through a pointer to no live object: `NULL`, wild, freed, or past the end. -/
  | pointer
  /-- A copy that has run over the end of a local array into its function's frame. -/
  | frame
  /-- A remainder by zero. -/
  | division
  deriving DecidableEq, Repr

/-- The conversion from `uint32_t` to `int`. -/
def asInt (u : UInt32) : ℤ := u.toInt32.toInt

/-- The bytes of a flat stretch of memory, from its first one on. -/
abbrev Memory := ℕ → CChar

/-- The first `n` bytes. -/
def Memory.bytes (m : Memory) (n : ℕ) : List CChar := (List.range n).map m

/-- `memcpy` of `bs` to the start of the stretch. -/
def Memory.write (m : Memory) (bs : List CChar) : Memory := fun k ↦ bs.getD k (m k)

@[simp] theorem Memory.length_bytes (m : Memory) (n : ℕ) : (m.bytes n).length = n := by
  rw [Memory.bytes, List.length_map, List.length_range]

theorem Memory.bytes_congr {m m' : Memory} {n : ℕ} (h : ∀ k < n, m k = m' k) :
    m.bytes n = m'.bytes n :=
  List.map_congr_left fun k hk ↦ h k (List.mem_range.mp hk)

theorem Memory.write_of_lt {m : Memory} {bs : List CChar} {k : ℕ} (hk : k < bs.length) :
    m.write bs k = bs[k] := by
  rw [Memory.write, List.getD_eq_getElem _ _ hk]

theorem Memory.write_of_le {m : Memory} {bs : List CChar} {k : ℕ} (hk : bs.length ≤ k) :
    m.write bs k = m k := by
  rw [Memory.write, List.getD_eq_default _ _ hk]

@[simp] theorem Memory.bytes_write (m : Memory) (bs : List CChar) :
    (m.write bs).bytes bs.length = bs := by
  refine List.ext_getElem (by simp) fun k hk hk' ↦ ?_
  simp only [Memory.bytes, List.getElem_map, List.getElem_range, Memory.write_of_lt hk']

theorem Memory.bytes_write_of_le (m : Memory) {bs : List CChar} {n : ℕ} (hn : bs.length ≤ n) :
    (m.write bs).bytes n = bs ++ (m.bytes n).drop bs.length := by
  refine List.ext_getElem (by simp [hn]) fun k hk _ ↦ ?_
  rw [Memory.length_bytes] at hk
  rcases Nat.lt_or_ge k bs.length with hlt | hge
  · rw [List.getElem_append_left hlt]
    simp only [Memory.bytes, List.getElem_map, List.getElem_range, Memory.write_of_lt hlt]
  · rw [List.getElem_append_right hge]
    simp only [Memory.bytes, List.getElem_map, List.getElem_range, List.getElem_drop,
      Memory.write_of_le hge, Nat.add_sub_cancel' hge]

theorem asInt_of_lt {u : UInt32} (hu : u.toNat < 2 ^ 31) : asInt u = u.toNat := by
  rw [asInt, Int32.toInt, UInt32.toBitVec_toInt32, BitVec.toInt_eq_toNat_of_lt]
  · rfl
  · rw [UInt32.toNat_toBitVec]; omega

end MinixClipboard
