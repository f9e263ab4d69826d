import MinixClipboard.Fault
import Mathlib.Data.Nat.Digits.Lemmas

/-!
# Numbers among bytes

Decimal numbers as bytes hold them, highest digit first: what a row of digits is worth, and the row
that is written for a number. The sources read numbers in three places and write them in one, always
in 32-bit words, digit by digit.
-/

namespace MinixClipboard

def isDigit (c : CChar) : Bool := 48 ≤ c && c ≤ 57

/-- The value of a digit. -/
def digit (c : CChar) : ℕ := c.toNatClampNeg - 48

/-- The number `n` goes on to with these digits behind it. -/
def number (n : ℕ) (digits : List CChar) : ℕ := digits.foldl (fun n c ↦ 10 * n + digit c) n

theorem number_append (n : ℕ) (ds ds' : List CChar) :
    number n (ds ++ ds') = number (number n ds) ds' := List.foldl_append

/-- A number is known modulo `m` as soon as its beginning is. -/
theorem number_mod (n m : ℕ) (digits : List CChar) :
    number (n % m) digits % m = number n digits % m := by
  induction digits generalizing n with
  | nil => exact Nat.mod_mod n m
  | cons c cs ih =>
    change number (10 * (n % m) + digit c) cs % m = number (10 * n + digit c) cs % m
    rw [← ih (10 * (n % m) + digit c), ← ih (10 * n + digit c)]
    congr 2
    rw [Nat.add_mod, Nat.mul_mod, Nat.mod_mod, ← Nat.mul_mod, ← Nat.add_mod]

theorem isDigit_iff {c : CChar} : isDigit c = true ↔ 48 ≤ c ∧ c ≤ 57 := by
  rw [isDigit, Bool.and_eq_true, decide_eq_true_iff, decide_eq_true_iff]

theorem toNat_add_sub_digit {c : CChar} (hc : isDigit c = true) (w : UInt32) :
    (w + c.toInt32.toUInt32 - 48).toNat = (w.toNat + digit c) % 2 ^ 32 := by
  obtain ⟨hlo, hhi⟩ := isDigit_iff.mp hc
  rw [Int8.le_iff_toInt_le] at hlo hhi
  have h48 : (48 : Int8).toInt = 48 := by decide
  have h57 : (57 : Int8).toInt = 57 := by decide
  have hnonneg : 0 ≤ c.toInt32 := by
    rw [Int32.le_iff_toInt_le, Int8.toInt_toInt32]
    change 0 ≤ c.toInt
    omega
  have hword : c.toInt32.toUInt32.toNat = c.toNatClampNeg := by
    rw [Int32.toNat_toUInt32_of_le hnonneg, Int8.toNatClampNeg_toInt32]
  have hclamp : c.toNatClampNeg = c.toInt.toNat := rfl
  rw [UInt32.toNat_sub, UInt32.toNat_add, hword, digit]
  change (2 ^ 32 - 48 + (w.toNat + c.toNatClampNeg) % 2 ^ 32) % 2 ^ 32 = _
  omega

theorem digit_lt {c : CChar} (hc : isDigit c = true) : digit c < 10 := by
  obtain ⟨-, hhi⟩ := isDigit_iff.mp hc
  rw [Int8.le_iff_toInt_le] at hhi
  have h57 : (57 : Int8).toInt = 57 := by decide
  have hclamp : c.toNatClampNeg = c.toInt.toNat := rfl
  rw [digit]
  omega

/-! ## Writing numbers -/

/-- The digit of a value below ten. -/
def digitChar (d : ℕ) : CChar := Int8.ofNat (48 + d)

/-- The digits of a number, highest first; none for zero. -/
def decimal (n : ℕ) : List CChar := ((Nat.digits 10 n).map digitChar).reverse

theorem toInt_digitChar {d : ℕ} (hd : d < 10) : (digitChar d).toInt = 48 + d := by
  rw [digitChar, Int8.toInt_ofNat_of_lt (by omega)]
  push_cast
  rfl

theorem isDigit_digitChar {d : ℕ} (hd : d < 10) : isDigit (digitChar d) = true := by
  have h48 : (48 : Int8).toInt = 48 := by decide
  have h57 : (57 : Int8).toInt = 57 := by decide
  rw [isDigit_iff, Int8.le_iff_toInt_le, Int8.le_iff_toInt_le, toInt_digitChar hd, h48, h57]
  omega

theorem digit_digitChar {d : ℕ} (hd : d < 10) : digit (digitChar d) = d := by
  have hclamp : (digitChar d).toNatClampNeg = (digitChar d).toInt.toNat := rfl
  rw [digit, hclamp, toInt_digitChar hd]
  omega

theorem isDigit_of_mem_decimal {n : ℕ} {c : CChar} (hc : c ∈ decimal n) : isDigit c = true := by
  rw [decimal, List.mem_reverse, List.mem_map] at hc
  obtain ⟨d, hd, rfl⟩ := hc
  exact isDigit_digitChar (Nat.digits_lt_base (by omega) hd)

theorem number_decimal (n : ℕ) : number 0 (decimal n) = n := by
  have hlow : ∀ ds : List ℕ, (∀ d ∈ ds, d < 10) →
      number 0 (ds.map digitChar).reverse = Nat.ofDigits 10 ds := by
    intro ds
    induction ds with
    | nil => exact fun _ ↦ rfl
    | cons d ds ih =>
      intro hds
      rw [List.forall_mem_cons] at hds
      rw [List.map_cons, List.reverse_cons, number_append, ih hds.2, Nat.ofDigits_cons]
      change 10 * Nat.ofDigits 10 ds + digit (digitChar d) = d + 10 * Nat.ofDigits 10 ds
      rw [digit_digitChar hds.1, Nat.add_comm]
  rw [decimal, hlow _ fun d hd ↦ Nat.digits_lt_base (by omega) hd, Nat.ofDigits_digits]

theorem decimal_ne_nil {n : ℕ} (hn : n ≠ 0) : decimal n ≠ [] := by
  rw [decimal, ne_eq, List.reverse_eq_nil_iff, List.map_eq_nil_iff]
  exact Nat.digits_ne_nil_iff_ne_zero.mpr hn

theorem length_decimal_succ_le (n : ℕ) : (decimal (n + 1)).length ≤ (decimal n).length + 1 := by
  simp only [decimal, List.length_reverse, List.length_map]
  by_cases hn : n = 0
  · subst hn
    decide
  · have hten : (Nat.digits 10 (10 * n)).length = (Nat.digits 10 n).length + 1 := by
      rw [Nat.digits_base_mul (by omega) (Nat.pos_of_ne_zero hn), List.length_cons]
    rw [← hten]
    exact Nat.le_length_digits_le 10 _ _ (by omega)

end MinixClipboard
