import MinixClipboard.Client.Announced
import MinixClipboard.Codec.Decoder
import Mathlib.Algebra.Order.BigOperators.Group.List

/-!
# The decoded size

How many bytes `decompress` writes, for any bytes it reads: one for each byte that is no digit, or
as many as the number behind it says, modulo `ALPHABET_SIZE`. A row of digits at the very start is
not a number of its own. It is read on behind the first byte that is no digit, as if that byte were
not there.

`expected_decompressed_size` reads the same numbers in its own way, modulo the word size and with a
number at the start on its own. What it announces is enough where neither matters
(`fitsIn_expected`).
-/

namespace MinixClipboard

namespace Codec

open Fallible

/-! ## Numbers -/

/-- The numbers behind the bytes that are no digits; zero where there is none. -/
def numbers : List CChar → List ℕ
  | [] => []
  | c :: cs => if isDigit c then numbers cs else number 0 (cs.takeWhile isDigit) :: numbers cs

/-- How many bytes `decompress` writes. -/
def decodedSize (b : List CChar) : ℕ :=
  match b.dropWhile isDigit with
  | [] => number 0 b % 26 - 1
  | _ :: cs => recovered (number 0 (b.takeWhile isDigit ++ cs.takeWhile isDigit))
      + ((numbers cs).map recovered).sum

theorem letters_eq_sum (b : List CChar) : letters b = ((numbers b).map count).sum := by
  induction b with
  | nil => rfl
  | cons c cs ih =>
    rw [letters, numbers, ih]
    split
    · exact Nat.zero_add _
    · rw [List.map_cons, List.sum_cons]

section Size

variable {c d : CChar} {cs : List CChar} {n : ℕ} {parsing : Bool}

theorem recovered_eq_succ (n : ℕ) : recovered n = 1 + (n % 26 - 1) := by
  rw [recovered]
  omega

theorem number_digit (hparsing : parsing = true ∨ n = 0) (ds : List CChar) :
    number (((if parsing then 10 * n else 0) + digit d) % 26) ds % 26 =
      number n (d :: ds) % 26 := by
  rw [number_mod]
  rcases hparsing with rfl | rfl
  · rfl
  · rw [Nat.mul_zero, ite_self]
    rfl

/-- What the loop writes once it has begun: what is left of the run it is in, and the runs behind
it. -/
theorem length_decodedFrom (hn : n < 26) (hparsing : parsing = true ∨ n = 0) (cs : List CChar) :
    (decodedFrom true n c parsing cs).length
      = number n (cs.takeWhile isDigit) % 26 - 1 + ((numbers cs).map recovered).sum := by
  induction cs generalizing n c parsing with
  | nil =>
    change (List.replicate (n - 1) c).length = n % 26 - 1 + 0
    rw [List.length_replicate, Nat.mod_eq_of_lt hn, Nat.add_zero]
  | cons d cs ih =>
    by_cases hd : isDigit d = true
    · rw [decodedFrom, if_pos hd, ih (Nat.mod_lt _ (by decide)) (Or.inl rfl),
        number_digit hparsing, List.takeWhile_cons_of_pos hd, numbers, if_pos hd]
    · have hrest := @ih d 0 false (by decide) (Or.inr rfl)
      have hnumber : number n [] = n := rfl
      rw [decodedFrom, if_neg hd, if_pos rfl, List.takeWhile_cons_of_neg hd, numbers, if_neg hd,
        List.map_cons, List.sum_cons, List.length_append, List.length_replicate, List.length_cons,
        hrest, recovered_eq_succ, hnumber, Nat.mod_eq_of_lt hn]
      omega

/-- What the loop writes before it has begun, with this much of a number read. -/
theorem length_decodedFrom_false (hn : n < 26) (hparsing : parsing = true ∨ n = 0)
    (b : List CChar) :
    (decodedFrom false n c parsing b).length = match b.dropWhile isDigit with
      | [] => number n b % 26 - 1
      | _ :: cs => recovered (number n (b.takeWhile isDigit ++ cs.takeWhile isDigit))
        + ((numbers cs).map recovered).sum := by
  induction b generalizing n parsing with
  | nil =>
    change (List.replicate (n - 1) c).length = n % 26 - 1
    rw [List.length_replicate, Nat.mod_eq_of_lt hn]
  | cons d cs ih =>
    by_cases hd : isDigit d = true
    · rw [decodedFrom, if_pos hd, ih (Nat.mod_lt _ (by decide)) (Or.inl rfl),
        List.dropWhile_cons_of_pos hd, List.takeWhile_cons_of_pos hd]
      cases cs.dropWhile isDigit with
      | nil => exact congrArg (· - 1) (number_digit hparsing cs)
      | cons e es =>
        dsimp only
        rw [recovered, number_digit hparsing]
        rfl
    · rw [decodedFrom, if_neg hd, if_neg Bool.false_ne_true, List.length_cons,
        length_decodedFrom hn hparsing, List.dropWhile_cons_of_neg hd,
        List.takeWhile_cons_of_neg hd]
      dsimp only
      rw [List.nil_append, recovered_eq_succ, Nat.add_comm]
      exact (Nat.add_assoc _ _ _).symm

/-- **The decoded size.** -/
theorem length_decoded (b : List CChar) : (decoded b).length = decodedSize b :=
  length_decodedFrom_false (by decide) (Or.inr rfl) b

end Size

/-! ## What is announced -/

/-- An array of `n` bytes is enough for what `decompress` makes of `b`. It writes one byte behind
the other, so this is to write at most `n` of them. -/
def FitsIn (b : List CChar) (n : ℕ) : Prop :=
  ∀ dst : List CChar, dst.length = n → ∃ s,
    decompress Arrays.apart (UInt32.ofNat b.length) (b, dst) = .ok ((), s)

theorem fitsIn_iff {b : List CChar} {n : ℕ} (hlt : b.length < 2 ^ 32) (hn : n < 2 ^ 32) :
    FitsIn b n ↔ decodedSize b ≤ n := by
  constructor
  · intro h
    by_contra hover
    have hdst : (List.replicate n (0 : CChar)).length = n := List.length_replicate
    obtain ⟨s, hs⟩ := h _ hdst
    have herror := decompress_error (s := (b, List.replicate n 0)) (b := b) (fun _ _ ↦ rfl) hlt
      (hdst.symm ▸ hn) (by rw [hdst, length_decoded]; exact Nat.lt_of_not_le hover)
    cases herror.symm.trans hs
  · intro hle dst hdst
    rw [← length_decoded] at hle
    exact ⟨_, decompress_eq (fun _ _ ↦ rfl) hlt (hle.trans_lt hn) (hle.trans_eq hdst.symm)⟩

theorem recovered_le_count {n : ℕ} (hn : n < 2 ^ 32) : recovered n ≤ count n := by
  rw [recovered, count, Nat.mod_eq_of_lt hn]
  split <;> omega

theorem numbers_dropWhile (b : List CChar) : numbers (b.dropWhile isDigit) = numbers b := by
  induction b with
  | nil => rfl
  | cons c cs ih =>
    by_cases hc : isDigit c = true
    · rw [List.dropWhile_cons_of_pos hc, ih, numbers, if_pos hc]
    · rw [List.dropWhile_cons_of_neg hc]

/-- Where only zeros stand at the start and no number wraps, the letters announced are at least
those written. -/
theorem decodedSize_le_letters {b : List CChar} (hlead : number 0 (b.takeWhile isDigit) = 0)
    (hne : b.dropWhile isDigit ≠ []) (hnumbers : ∀ n ∈ numbers b, n < 2 ^ 32) :
    decodedSize b ≤ letters b := by
  have hsize : decodedSize b = ((numbers b).map recovered).sum := by
    rw [decodedSize, ← numbers_dropWhile]
    cases hdrop : b.dropWhile isDigit with
    | nil => exact absurd hdrop hne
    | cons c cs =>
      have hc : ¬isDigit c = true := by
        have hhead := List.head_dropWhile_not isDigit (by rw [hdrop]; exact List.cons_ne_nil c cs)
        simpa [hdrop] using hhead
      dsimp only
      rw [number_append, hlead, numbers, if_neg hc, List.map_cons, List.sum_cons]
  rw [letters_eq_sum, hsize]
  exact List.sum_le_sum fun n hn ↦ recovered_le_count (hnumbers n hn)

theorem fitsIn_expected_iff {b : List CChar} (hlen : b.length ≤ entryLenLimit) :
    FitsIn b (expectedDecompressedSize b).toNat ↔ decodedSize b ≤ announced b % 2 ^ 32 := by
  have hlt : b.length < 2 ^ 32 := hlen.trans_lt (by decide)
  rw [fitsIn_iff hlt (UInt32.toNat_lt _), expectedDecompressedSize_toNat hlt]

/-- All the numbers in a text, one at the very start included. -/
def allNumbers (b : List CChar) : List ℕ :=
  if b.takeWhile isDigit = [] then numbers b
  else number 0 (b.takeWhile isDigit) :: numbers b

/-- A text whose numbers the estimate and the decoder read alike: if there is a letter, only zeros
stand in front of the first one, and no word is too small for the numbers. -/
structure ReadAlike (b : List CChar) : Prop where
  lead : number 0 (b.takeWhile isDigit) = 0 ∨ b.dropWhile isDigit = []
  sum : ((allNumbers b).map (max 1)).sum < 2 ^ 32

theorem announced_eq_sum (b : List CChar) : announced b = ((allNumbers b).map count).sum := by
  rw [announced, allNumbers, letters_eq_sum]
  split
  · exact Nat.zero_add _
  · rw [List.map_cons, List.sum_cons]

namespace ReadAlike

variable {b : List CChar} (h : ReadAlike b)
include h

theorem lt_of_mem {n : ℕ} (hn : n ∈ allNumbers b) : n < 2 ^ 32 :=
  (le_max_right 1 n).trans_lt
    ((List.single_le_sum (by simp) _ (List.mem_map_of_mem hn)).trans_lt h.sum)

theorem announced_lt : announced b < 2 ^ 32 := by
  have hcount : ∀ n ∈ allNumbers b, count n = max 1 n := by
    intro n hn
    rw [count, Nat.mod_eq_of_lt (h.lt_of_mem hn)]
    split <;> omega
  rw [announced_eq_sum, List.map_congr_left hcount]
  exact h.sum

theorem decodedSize_le : decodedSize b ≤ announced b := by
  by_cases hdigits : b.dropWhile isDigit = []
  · -- a number alone is decoded to fewer zero bytes than it announces
    have htake : b.takeWhile isDigit = b := by
      rw [← List.append_nil (b.takeWhile isDigit), ← hdigits, List.takeWhile_append_dropWhile]
    have hsize : decodedSize b = number 0 b % 26 - 1 := by rw [decodedSize, hdigits]
    by_cases hnil : b = []
    · subst hnil
      exact Nat.zero_le _
    · have hall : allNumbers b = number 0 b :: numbers b := by rw [allNumbers, htake, if_neg hnil]
      have hle := recovered_le_count (h.lt_of_mem (n := number 0 b) (by simp [hall]))
      rw [recovered] at hle
      rw [announced_eq_sum, hall, List.map_cons, List.sum_cons]
      omega
  · have hnumbers : ∀ n ∈ numbers b, n < 2 ^ 32 := fun n hn ↦ h.lt_of_mem (by
      rw [allNumbers]
      split
      · exact hn
      · exact List.mem_cons_of_mem _ hn)
    exact (decodedSize_le_letters (h.lead.resolve_right hdigits) hdigits hnumbers).trans
      (Nat.le_add_left _ _)

end ReadAlike

/-- **What is announced is enough** for a text whose numbers are read alike. -/
theorem fitsIn_expected {b : List CChar} (hlen : b.length ≤ entryLenLimit) (h : ReadAlike b) :
    FitsIn b (expectedDecompressedSize b).toNat := by
  rw [fitsIn_expected_iff hlen, Nat.mod_eq_of_lt h.announced_lt]
  exact h.decodedSize_le

theorem fitsIn_expected_a2 : FitsIn [97, 50] (expectedDecompressedSize [97, 50]).toNat :=
  fitsIn_expected (by decide) ⟨by decide +kernel, by decide +kernel⟩

/-- The bytes `1a0` announce two letters, and are decoded to ten. -/
theorem not_fitsIn_expected : ¬∀ b : List CChar, b.length ≤ entryLenLimit →
    FitsIn b (expectedDecompressedSize b).toNat := by
  intro h
  have hfits := (fitsIn_iff (by decide) (UInt32.toNat_lt _)).mp (h [49, 97, 48] (by decide))
  exact absurd hfits (by decide +kernel)

end Codec

end MinixClipboard
