import MinixClipboard.Library.I386.Machine
import Mathlib.Tactic.Ring

/-!
# Division

Compilers divide by a constant by multiplying with another one and shifting what comes out. It is
the same when the product of the two constants is close enough to a power of two
(`mul_div_two_pow`).
-/

namespace I386

/-- If `d * c` exceeds `2 ^ k` by little, to multiply with `c` and shift by `k` divides by `d`. -/
theorem mul_div_two_pow {n k c d e x : ℕ} (hc : d * c = 2 ^ k + e) (he : e * 2 ^ n ≤ 2 ^ k)
    (hx : x < 2 ^ n) : x * c / 2 ^ k = x / d := by
  have hd : 0 < d := by
    rcases Nat.eq_zero_or_pos d with rfl | hd
    · have := Nat.two_pow_pos k
      omega
    · exact hd
  have hmul : d * (x * c) = x * 2 ^ k + x * e := by rw [← Nat.mul_add, ← hc]; ring
  have hsmall : x * e < 2 ^ k := by
    rcases Nat.eq_zero_or_pos e with rfl | he'
    · exact Nat.two_pow_pos k
    · exact (Nat.mul_lt_mul_of_pos_right hx he').trans_le (Nat.mul_comm e _ ▸ he)
  refine Nat.div_eq_of_lt_le ?_ ?_
  · refine Nat.le_of_mul_le_mul_left ?_ hd
    rw [hmul, ← Nat.mul_assoc]
    exact (Nat.mul_le_mul_right _ (Nat.mul_div_le x d)).trans (Nat.le_add_right _ _)
  · refine Nat.lt_of_mul_lt_mul_left (a := d) ?_
    rw [hmul, ← Nat.mul_assoc]
    refine lt_of_lt_of_le ?_ (Nat.mul_le_mul_right _ (Nat.lt_mul_div_succ x hd))
    rw [Nat.succ_mul]
    exact Nat.add_lt_add_left hsmall _

variable {m : Machine} {v d : UInt32}

theorem mulHigh_shr (c : UInt32) {k e : ℕ} (hk : k < 32) (hc : d.toNat * c.toNat = 2 ^ (32 + k) + e)
    (he : e * 2 ^ 32 ≤ 2 ^ (32 + k)) : mulHigh v c >>> UInt32.ofNat k = v / d := by
  have hdiv := mul_div_two_pow hc he (UInt32.toNat_lt v)
  have hlt : v.toNat * c.toNat / 2 ^ 32 < 2 ^ 32 :=
    Nat.div_lt_of_lt_mul (Nat.mul_lt_mul'' (UInt32.toNat_lt v) (UInt32.toNat_lt c))
  rw [← UInt32.toNat_inj, UInt32.toNat_shiftRight, mulHigh, UInt32.toNat_ofNat_of_lt' hlt,
    UInt32.toNat_ofNat_of_lt' (hk.trans (by decide)), Nat.mod_eq_of_lt hk, UInt32.toNat_div, ← hdiv,
    Nat.shiftRight_eq_div_pow, Nat.div_div_eq_div_mul, ← Nat.pow_add]

theorem mulHigh_comm (v w : UInt32) : mulHigh v w = mulHigh w v := by
  rw [mulHigh, mulHigh, Nat.mul_comm]

theorem mulHigh_shr_26 (v : UInt32) : mulHigh v 1321528399 >>> 3 = v / 26 :=
  mulHigh_shr (d := 26) 1321528399 (k := 3) (e := 6) (by decide) (by decide) (by decide)

/-- Dividing by 10. The factor is 3435973837. -/
theorem mulHigh_shr_10 (v : UInt32) : mulHigh v (-858993459) >>> 3 = v / 10 :=
  mulHigh_shr (d := 10) (-858993459) (k := 3) (e := 2) (by decide) (by decide) (by decide)

theorem sub_div_mul (v d : UInt32) : v - v / d * d = v % d := by
  have hle : v.toNat / d.toNat * d.toNat ≤ v.toNat := Nat.div_mul_le_self _ _
  have hmul : (v / d * d).toNat = v.toNat / d.toNat * d.toNat := by
    rw [UInt32.toNat_mul, UInt32.toNat_div, Nat.mod_eq_of_lt (hle.trans_lt (UInt32.toNat_lt v))]
  rw [← UInt32.toNat_inj,
    UInt32.toNat_sub_of_le _ _ (UInt32.le_iff_toNat_le.mpr (hmul ▸ hle)), hmul,
    UInt32.toNat_mod, Nat.mod_eq_sub_div_mul]

theorem divide_of_edx_eq_zero (hedx : m.edx = 0) (hd : d ≠ 0) :
    m.divide d = some {m with eax := m.eax / d, edx := m.eax % d, flags := none} := by
  have hlt := UInt32.toNat_lt m.eax
  rw [Machine.divide, hedx]
  simp only [UInt32.toNat_zero, Nat.zero_mul, Nat.zero_add, hd, false_or]
  rw [if_neg (Nat.not_le.mpr ((Nat.div_le_self _ _).trans_lt hlt)), ← UInt32.toNat_div,
    ← UInt32.toNat_mod, UInt32.ofNat_toNat, UInt32.ofNat_toNat]

end I386
