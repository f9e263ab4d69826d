import MinixClipboard.Codec.Decoder
import MinixClipboard.Codec.Lossless
import Mathlib.Data.Set.Function

/-!
# The canonical texts of the format

The decoder reads anything: counts of zero, counts that wrap around, a count at the start, a run in
two pieces. The encoder writes few of these texts. This file says which ones come out unchanged when
they are decompressed and compressed again: those that are read as maximal runs, each shorter than
26 (`compress_decompress_iff`). Between them and the texts without digits and without longer runs,
the two functions are inverse to each other (`invOn_canonical`).
-/

namespace MinixClipboard

namespace Codec

open Fallible Runs

variable {b ds out : List CChar} {n : ℕ} {ps : List (CChar × Option ℕ)}

/-- A text of the format whose counts are those of maximal runs, and not too large. -/
def Canonical (b : List CChar) : Prop :=
  ∃ rs, Parses b (rs.map pair) ∧ MaximalRuns rs ∧ ∀ r ∈ rs, r.2 < 26

/-- A text of bytes that are no digits, without a run that is too long. -/
structure Encodable (text : List CChar) : Prop where
  digits : ∀ c ∈ text, isDigit c = false
  short : ∀ r ∈ runs text, r.2 < 26

/-! ## Reading numbers -/

theorem digitChar_digit {c : CChar} (hc : isDigit c = true) : digitChar (digit c) = c := by
  obtain ⟨hlo, -⟩ := isDigit_iff.mp hc
  rw [Int8.le_iff_toInt_le] at hlo
  have h48 : (48 : Int8).toInt = 48 := by decide
  have hclamp : c.toNatClampNeg = c.toInt.toNat := rfl
  rw [← Int8.toInt_inj, toInt_digitChar (digit_lt hc), digit]
  omega

/-- There is one way to write a number in decimal without a leading zero. -/
theorem IsDecimal.eq_decimal (h : IsDecimal ds n) : ds = decimal n := by
  obtain ⟨L, hL⟩ : ∃ L, L = (ds.map digit).reverse := ⟨_, rfl⟩
  have hlt : ∀ d ∈ L, d < 10 := by
    intro d hd
    rw [hL, List.mem_reverse, List.mem_map] at hd
    obtain ⟨c, hc, rfl⟩ := hd
    exact digit_lt (h.digits c hc)
  -- the last of the reversed digits is the first one, which is not zero
  have hlast : ∀ hne : L ≠ [], L.getLast hne ≠ 0 := by
    intro hne hzero
    obtain ⟨c, cs, rfl⟩ : ∃ c cs, ds = c :: cs := by
      refine List.exists_cons_of_ne_nil fun hnil ↦ hne ?_
      rw [hL, hnil]
      rfl
    have hc := h.digits c List.mem_cons_self
    have hdigit : digit c = 0 := by simpa [hL] using hzero
    refine h.head ?_
    rw [List.head?_cons, ← digitChar_digit hc, hdigit]
    rfl
  have hback : (L.map digitChar).reverse = ds := by
    rw [hL, List.map_reverse, List.reverse_reverse, List.map_map]
    conv_rhs => rw [← List.map_id ds]
    exact List.map_congr_left fun c hc ↦ digitChar_digit (h.digits c hc)
  have hdecimal : decimal (Nat.ofDigits 10 L) = ds := by
    rw [decimal, Nat.digits_ofDigits 10 (by decide) L hlt hlast, hback]
  rw [← h.number, ← hdecimal, number_decimal]

theorem Parses.exists_encoded (h : Parses out ps) :
    ∃ rs, ps = rs.map pair ∧ out = encoded rs ∧ ∀ r ∈ rs, isDigit r.1 = false ∧ 0 < r.2 := by
  induction h with
  | nil => exact ⟨[], rfl, rfl, by simp⟩
  | @byte c out ps hc _ ih =>
    obtain ⟨rs, rfl, rfl, hrs⟩ := ih
    exact ⟨(c, 1) :: rs, rfl, rfl, List.forall_mem_cons.mpr ⟨⟨hc, Nat.one_pos⟩, hrs⟩⟩
  | @counted c ds out n ps hc hds hn _ ih =>
    obtain ⟨rs, rfl, rfl, hrs⟩ := ih
    refine ⟨(c, n) :: rs, ?_, ?_, List.forall_mem_cons.mpr ⟨⟨hc, by omega⟩, hrs⟩⟩
    · rw [List.map_cons, pair, if_neg (by omega)]
    · rw [encoded_cons, piece_of_two_le hn, hds.eq_decimal, List.cons_append]

/-! ## Decoding and encoding -/

theorem isDigit_of_mem_decodedFrom {started parsing : Bool} {count : ℕ} {lastChar c : CChar}
    {l : List CChar} (hlast : isDigit lastChar = false)
    (hc : c ∈ decodedFrom started count lastChar parsing l) : isDigit c = false := by
  induction l generalizing started count lastChar parsing with
  | nil =>
    rw [decodedFrom, List.mem_replicate] at hc
    rw [hc.2]
    exact hlast
  | cons d ds ih =>
    rw [decodedFrom] at hc
    split at hc
    · exact ih hlast hc
    rename_i hd
    rw [Bool.not_eq_true] at hd
    split at hc
    · rw [List.mem_append, List.mem_cons, List.mem_replicate] at hc
      rcases hc with ⟨-, rfl⟩ | rfl | hc
      · exact hlast
      · exact hd
      · exact ih hd hc
    · rcases List.mem_cons.mp hc with rfl | hc
      · exact hd
      · exact ih hd hc

theorem isDigit_of_mem_decoded {c : CChar} (hc : c ∈ decoded b) : isDigit c = false :=
  isDigit_of_mem_decodedFrom (by decide) hc

/-- A text that can be encoded is decoded again. -/
theorem Encodable.decoded {text : List CChar} (h : Encodable text) :
    Codec.decoded (encoded (runs text)) = text :=
  (decoded_encoded_runs h.digits).trans (recoveredText_eq_iff.mpr h.short)

theorem Encodable.canonical {text : List CChar} (h : Encodable text) :
    Canonical (encoded (runs text)) :=
  ⟨runs text, parses_encoded fun _ hr ↦ ⟨h.digits _ (fst_mem_of_mem_runs hr), pos_of_mem_runs hr⟩,
    maximal_runs text, h.short⟩

/-- A canonical text is the encoding of what it decodes to. -/
theorem Canonical.encodable (h : Canonical b) :
    Encodable (decoded b) ∧ encoded (runs (decoded b)) = b := by
  obtain ⟨rs, hparses, hmax, hshort⟩ := h
  obtain ⟨rs', hpairs, rfl, hrs⟩ := hparses.exists_encoded
  obtain rfl : rs = rs' := List.map_injective_iff.mpr pair_injective hpairs
  have hdecoded : decoded (encoded rs) = expand rs := by
    rw [decoded_encoded hrs]
    exact (expand_map_eq_iff fun r hr ↦ recovered_le (hrs r hr).2).mpr fun r hr ↦
      (recovered_eq_iff (hrs r hr).2).mpr (hshort r hr)
  have hruns : runs (decoded (encoded rs)) = rs := runs_eq_iff.mpr ⟨hmax, hdecoded.symm⟩
  refine ⟨⟨fun c hc ↦ isDigit_of_mem_decoded hc, ?_⟩, by rw [hruns]⟩
  rwa [hruns]

/-- The canonical texts are those that are the encoding of what they decode to. -/
theorem canonical_iff : Canonical b ↔ encoded (runs (decoded b)) = b := by
  constructor
  · exact fun h ↦ h.encodable.2
  · intro h
    have hdigits : ∀ c ∈ decoded b, isDigit c = false := fun c hc ↦ isDigit_of_mem_decoded hc
    -- decoding once more gives back what is recovered of the decoded text, and so all of it
    have hrecovered : recoveredText (decoded b) = decoded b := by
      rw [← decoded_encoded_runs hdigits, h]
    rw [← h]
    exact Encodable.canonical ⟨hdigits, recoveredText_eq_iff.mp hrecovered⟩

theorem invOn_canonical :
    Set.InvOn decoded (fun text ↦ encoded (runs text)) {text | Encodable text} {b | Canonical b} ∧
      Set.BijOn (fun text ↦ encoded (runs text)) {text | Encodable text} {b | Canonical b} := by
  have hinv : Set.InvOn decoded (fun text ↦ encoded (runs text)) {text | Encodable text}
      {b | Canonical b} := ⟨fun _ h ↦ h.decoded, fun _ h ↦ h.encodable.2⟩
  exact ⟨hinv, hinv.bijOn (fun _ h ↦ h.canonical) fun _ h ↦ h.encodable.1⟩

/-- **Decompressing and compressing again.** Whatever bytes are decompressed, with room for 25 for
each of them, the encoder gives them back from what has been written exactly if they are a canonical
text. -/
theorem compress_decompress_iff (hlt : 25 * b.length < 2 ^ 32) {dst back : List CChar}
    (hdst : 25 * b.length ≤ dst.length) (hback : 25 * b.length ≤ back.length) :
    decompress Arrays.apart (UInt32.ofNat b.length) (b, dst)
        = .ok ((), (b, decoded b ++ dst.drop (decoded b).length)) ∧
      ∃ size back', compress Arrays.apart (UInt32.ofNat (decoded b).length)
          (decoded b ++ dst.drop (decoded b).length, back)
          = .ok (size, (decoded b ++ dst.drop (decoded b).length, back')) ∧
        (back'.take size.toNat = b ↔ Canonical b) := by
  have hle := length_decoded_le b
  have hle' := length_encoded_runs_le (decoded b)
  have hdecompress := decompress_eq (s := (b, dst)) (l := b) (fun _ _ ↦ rfl) (by omega)
    (hle.trans_lt hlt) (hle.trans hdst)
  rw [written_apart] at hdecompress
  have hcompress := compress_eq (A := Arrays.apart)
    (s := (decoded b ++ dst.drop (decoded b).length, back)) (l := decoded b)
    (fun k hk ↦ List.getElem?_append_left hk) (hle.trans_lt hlt) ((hle'.trans hle).trans hback)
  rw [written_apart] at hcompress
  refine ⟨hdecompress, _, _, hcompress, ?_⟩
  rw [toNat_ofNat (by omega), List.take_left]
  exact canonical_iff.symm

/-- The text `a2` is canonical, and `a1` is not. -/
theorem compress_decompress_iff_a2 :
    (∃ size back', compress Arrays.apart 2 (97 :: 97 :: List.replicate 48 0, List.replicate 50 0)
        = .ok (size, (97 :: 97 :: List.replicate 48 0, back')) ∧
      (back'.take size.toNat = [97, 50] ↔ Canonical [97, 50])) ∧
    encoded (runs (decoded [97, 49])) ≠ [97, 49] :=
  ⟨(@compress_decompress_iff [97, 50] (by decide) (List.replicate 50 0) (List.replicate 50 0)
    (by decide) (by decide)).2, by decide +kernel⟩

end Codec

end MinixClipboard
