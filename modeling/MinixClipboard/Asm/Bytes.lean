import MinixClipboard.Asm.Code
import MinixClipboard.Library.I386.Arithmetic
import MinixClipboard.Library.I386.Memory

/-!
# Characters in registers

The tests for digits and letters compare a byte without its sign, after a subtraction that wraps
around. Such facts are about one byte, and hold because they hold of all 256.
-/

namespace MinixClipboard

namespace Asm

open I386 Codec

-- 256 cases are decided one inside the other
set_option maxRecDepth 4000

theorem forall_byte {p : UInt8 → Prop} (h : ∀ n < 256, p (UInt8.ofNat n)) (x : UInt8) : p x := by
  have hx := h x.toNat (UInt8.toNat_lt _)
  rwa [UInt8.ofNat_toNat] at hx

theorem forall_char {p : CChar → Prop} (h : ∀ n < 256, p (UInt8.ofNat n).toInt8) (c : CChar) :
    p c := by
  have hc := h c.toUInt8.toNat (UInt8.toNat_lt _)
  rwa [UInt8.ofNat_toNat, Int8.toInt8_toUInt8] at hc

theorem toNat_add_one {i : UInt32} {n : ℕ} (hi : i.toNat < n) (hn : n < 2 ^ 32) :
    (i + 1).toNat = i.toNat + 1 := by
  rw [UInt32.toNat_add, Nat.mod_eq_of_lt]
  · rfl
  · change i.toNat + 1 < 2 ^ 32
    omega

theorem toUInt8_inj {c d : CChar} : c.toUInt8 = d.toUInt8 ↔ c = d := by
  refine ⟨fun h ↦ ?_, congrArg Int8.toUInt8⟩
  rw [← Int8.toInt8_toUInt8 c, h, Int8.toInt8_toUInt8]

@[simp] theorem toUInt8_signExtend (c : CChar) : c.toInt32.toUInt32.toUInt8 = c.toUInt8 := by
  refine forall_char (p := fun c ↦ c.toInt32.toUInt32.toUInt8 = c.toUInt8) ?_ c
  decide

theorem toUInt8_add_neg_48 (c : CChar) : c.toUInt8 + -48 = (c - 48).toUInt8 := by
  refine forall_char (p := fun c ↦ c.toUInt8 + -48 = (c - 48).toUInt8) ?_ c
  decide

theorem toUInt8_add_neg_97 (c : CChar) : c.toUInt8 + -97 = (c - 97).toUInt8 := by
  refine forall_char (p := fun c ↦ c.toUInt8 + -97 = (c - 97).toUInt8) ?_ c
  decide

theorem toUInt8_add_neg_65 (c : CChar) : c.toUInt8 + -65 = (c - 65).toUInt8 := by
  refine forall_char (p := fun c ↦ c.toUInt8 + -65 = (c - 65).toUInt8) ?_ c
  decide

theorem sub_48_le_iff (c : CChar) : (c - 48).toUInt8 ≤ 9 ↔ isDigit c = true := by
  refine forall_char (p := fun c ↦ (c - 48).toUInt8 ≤ 9 ↔ isDigit c = true) ?_ c
  decide

theorem sub_97_le_iff (c : CChar) : (c - 97).toUInt8 ≤ 25 ↔ isLower c = true := by
  refine forall_char (p := fun c ↦ (c - 97).toUInt8 ≤ 25 ↔ isLower c = true) ?_ c
  decide

theorem sub_65_le_iff (c : CChar) : (c - 65).toUInt8 ≤ 25 ↔ isUpper c = true := by
  refine forall_char (p := fun c ↦ (c - 65).toUInt8 ≤ 25 ↔ isUpper c = true) ?_ c
  decide

theorem sub_65_lt_iff (c : CChar) : c.toUInt8 + -65 < 26 ↔ isUpper c = true := by
  refine forall_char (p := fun c ↦ c.toUInt8 + -65 < 26 ↔ isUpper c = true) ?_ c
  decide

/-- The remainder of a byte with a sign: it is multiplied with 79 and shifted, in 16 bits, and what
comes out is one too little if the sign is set. -/
theorem sub_mul_26 (x : UInt8) :
    x - (((((x.toInt8.toInt16.toUInt16 + x.toInt8.toInt16.toUInt16 * 4) <<< 4).toInt16 -
        x.toInt8.toInt16) >>> 11).toUInt16.toUInt8 - (x.toInt8 >>> 7).toUInt8) * 26
      = (x.toInt8 % 26).toUInt8 := by
  refine forall_byte (p := fun x ↦
    x - (((((x.toInt8.toInt16.toUInt16 + x.toInt8.toInt16.toUInt16 * 4) <<< 4).toInt16 -
        x.toInt8.toInt16) >>> 11).toUInt16.toUInt8 - (x.toInt8 >>> 7).toUInt8) * 26
      = (x.toInt8 % 26).toUInt8) ?_ x
  decide

theorem toUInt32_and_high (x : UInt8) : x.toUInt32 &&& 0xffff0000 = 0 := by
  refine forall_byte (p := fun x ↦ x.toUInt32 &&& 0xffff0000 = 0) ?_ x
  decide

theorem toUInt8_digit (val : UInt32) : val.toUInt8 - ((val / 10).toUInt8 + (val / 10).toUInt8 * 4 +
    ((val / 10).toUInt8 + (val / 10).toUInt8 * 4)) + 48 = (asChar (48 + val % 10)).toUInt8 := by
  rw [asChar, UInt8.toUInt8_toInt8, ← sub_div_mul val 10, UInt32.toUInt8_add, UInt32.toUInt8_sub,
    UInt32.toUInt8_mul]
  change _ = 48 + (val.toUInt8 - (val / 10).toUInt8 * 10)
  grind

theorem toUInt8_cipherChar (mode : UInt32) (v c : CChar) :
    (cipherChar mode v c).toUInt8 = (charBase c).toUInt8 +
      ((if mode = 1 then 26 - v.toUInt8 + (c - charBase c).toUInt8
        else (c - charBase c).toUInt8 + v.toUInt8).toInt8 % 26).toUInt8 := by
  rw [cipherChar, modeDecipher, Int8.toUInt8_add, UInt8.add_comm]
  by_cases hmode : mode = 1
  · rw [if_pos (beq_iff_eq.mpr hmode), if_pos hmode, Int8.add_comm]
    rfl
  · rw [if_neg (by simpa using hmode), if_neg hmode]
    rfl

end Asm

end MinixClipboard
