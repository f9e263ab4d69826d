import MinixClipboard.Client.Announced
import MinixClipboard.Codec.Encoder

/-!
# The estimate of the decompressed size

`expected_decompressed_size` belongs to the library, and reads what `compress` has written. A run of
`n` bytes announces `n` letters, so for an encoding the announced length is the length of the text
(`announced_encoded`), whatever the decoder makes of it.
-/

namespace MinixClipboard

namespace Codec

open Runs

section Announced

variable {rs : List (CChar × ℕ)} {ds cs : List CChar}

theorem letters_append (hds : ∀ d ∈ ds, isDigit d = true) : letters (ds ++ cs) = letters cs := by
  induction ds with
  | nil => rfl
  | cons d ds ih =>
    rw [List.forall_mem_cons] at hds
    rw [List.cons_append, letters, if_pos hds.1, Nat.zero_add, ih hds.2]

theorem count_of_pos {n : ℕ} (hpos : 0 < n) (hlt : n < 2 ^ 32) : count n = n := by
  rw [count, Nat.mod_eq_of_lt hlt, if_neg (Nat.ne_of_gt hpos)]

/-- Behind the byte of a run stands what announces its length. -/
theorem piece_eq_cons {c : CChar} {n : ℕ} (hpos : 0 < n) (hlt : n < 2 ^ 32) :
    ∃ ds, piece (c, n) = c :: ds ∧ (∀ d ∈ ds, isDigit d = true) ∧ count (number 0 ds) = n := by
  by_cases hone : n = 1
  · subst hone
    exact ⟨[], rfl, by simp, rfl⟩
  · refine ⟨decimal n, piece_of_two_le (by omega), fun d ↦ isDigit_of_mem_decimal, ?_⟩
    rw [number_decimal, count_of_pos hpos hlt]

variable (hrs : ∀ r ∈ rs, isDigit r.1 = false ∧ 0 < r.2 ∧ r.2 < 2 ^ 32)
include hrs

theorem takeWhile_encoded : (encoded rs).takeWhile isDigit = [] := by
  cases rs with
  | nil => rfl
  | cons r rs =>
    rw [List.forall_mem_cons] at hrs
    obtain ⟨ds, hds, -⟩ := piece_eq_cons (c := r.1) hrs.1.2.1 hrs.1.2.2
    rw [encoded_cons, hds, List.cons_append, List.takeWhile_cons_of_neg (by simp [hrs.1.1])]

theorem letters_encoded : letters (encoded rs) = (expand rs).length := by
  induction rs with
  | nil => rfl
  | cons r rs ih =>
    have htail : (encoded rs).takeWhile isDigit = [] :=
      takeWhile_encoded fun r hr ↦ hrs r (List.mem_cons_of_mem _ hr)
    rw [List.forall_mem_cons] at hrs
    obtain ⟨ds, hds, hdigits, hcount⟩ := piece_eq_cons (c := r.1) hrs.1.2.1 hrs.1.2.2
    rw [encoded_cons, hds, List.cons_append, letters, hrs.1.1, if_neg Bool.false_ne_true,
      List.takeWhile_append_of_pos hdigits, htail, List.append_nil, hcount, letters_append hdigits,
      ih hrs.2, expand_cons, List.length_append, List.length_replicate]

theorem announced_encoded : announced (encoded rs) = (expand rs).length := by
  rw [announced, if_pos (takeWhile_encoded hrs), Nat.zero_add, letters_encoded hrs]

end Announced

variable {text dst : List CChar}

/-- **An exact estimate.** For what `compress` makes of a text without digits,
`expected_decompressed_size` is the length of the text. -/
theorem expectedDecompressedSize_compress (htext : ∀ c ∈ text, isDigit c = false)
    (hlt : text.length < 2 ^ 32) (hdst : (encoded (runs text)).length ≤ dst.length) :
    ∃ size dst', compress Arrays.apart (UInt32.ofNat text.length) (text, dst)
        = .ok (size, (text, dst')) ∧
      (expectedDecompressedSize (dst'.take size.toNat)).toNat = text.length := by
  have hsize := (length_encoded_runs_le text).trans_lt hlt
  have hrs : ∀ r ∈ runs text, isDigit r.1 = false ∧ 0 < r.2 ∧ r.2 < 2 ^ 32 := by
    intro r hr
    exact ⟨htext _ (fst_mem_of_mem_runs hr), pos_of_mem_runs hr,
      (le_length_of_mem_runs hr).trans_lt hlt⟩
  refine ⟨_, _, compress_eq (A := Arrays.apart) (fun _ _ ↦ rfl) hlt hdst, ?_⟩
  have htake : (written Arrays.apart (text, dst) 0 (encoded (runs text))).2.take
      (encoded (runs text)).length = encoded (runs text) := by
    rw [written_apart, List.take_left]
  rw [toNat_ofNat hsize]
  change (expectedDecompressedSize ((written Arrays.apart (text, dst) 0 _).2.take _)).toNat = _
  rw [htake, expectedDecompressedSize_toNat hsize, announced_encoded hrs, expand_runs,
    Nat.mod_eq_of_lt hlt]

theorem expectedDecompressedSize_compress_sample :
    ∃ size dst', compress Arrays.apart (UInt32.ofNat 2) ([97, 97], [0, 0])
        = .ok (size, ([97, 97], dst')) ∧
      (expectedDecompressedSize (dst'.take size.toNat)).toNat = 2 :=
  @expectedDecompressedSize_compress [97, 97] [0, 0] (by decide +kernel) (by decide) (by decide)

end Codec

end MinixClipboard
