import MinixClipboard.Codec.Encoder

/-!
# The format of the encoder

What `compress` writes has no separators: a byte, then the length of its run in decimal if that is
not one, then the next byte. `Parses` says how such a text is read, as a list of bytes with counts.
Of a text without digits the output can be read in one way only, and what is read are its maximal
runs; so the text is known from the output (`output_lossless`).

A count ends where the next byte is no digit, and that is all there is to tell it from what follows.
A text with digits in it could be read in many ways.
-/

namespace MinixClipboard

namespace Codec

open Fallible Runs

/-! ## Reading the format -/

/-- These characters are the number in decimal, without a leading zero. -/
structure IsDecimal (ds : List CChar) (n : ℕ) : Prop where
  digits : ∀ d ∈ ds, isDigit d = true
  head : ds.head? ≠ some 48
  number : number 0 ds = n

/-- A text is read as a list of bytes that are no digits, each with a count of at least two or with
none. -/
inductive Parses : List CChar → List (CChar × Option ℕ) → Prop
  | nil : Parses [] []
  | byte {c : CChar} {out : List CChar} {ps : List (CChar × Option ℕ)} :
      isDigit c = false → Parses out ps → Parses (c :: out) ((c, none) :: ps)
  | counted {c : CChar} {ds out : List CChar} {n : ℕ} {ps : List (CChar × Option ℕ)} :
      isDigit c = false → IsDecimal ds n → 2 ≤ n → Parses out ps →
      Parses (c :: (ds ++ out)) ((c, some n) :: ps)

variable {out ds ds' : List CChar} {n : ℕ} {ps ps' : List (CChar × Option ℕ)}

theorem IsDecimal.ne_nil (h : IsDecimal ds n) (hn : 2 ≤ n) : ds ≠ [] := by
  rintro rfl
  have hzero : 0 = n := h.number
  omega

theorem Parses.takeWhile (h : Parses out ps) : out.takeWhile isDigit = [] := by
  cases h with
  | nil => rfl
  | byte hc _ => exact List.takeWhile_cons_of_neg (by simp [hc])
  | counted hc _ _ _ => exact List.takeWhile_cons_of_neg (by simp [hc])

theorem Parses.takeWhile_append (h : Parses out ps) (hds : ∀ d ∈ ds, isDigit d = true) :
    (ds ++ out).takeWhile isDigit = ds := by
  rw [List.takeWhile_append_of_pos hds, h.takeWhile, List.append_nil]

/-- **Unique parsing.** A text is read in at most one way. -/
theorem Parses.unique (h : Parses out ps) (h' : Parses out ps') : ps = ps' := by
  induction h generalizing ps' with
  | nil =>
    cases h'
    rfl
  | @byte c out ps hc h ih =>
    cases h' with
    | byte _ h' => rw [ih h']
    | @counted _ ds out' n ps' _ hds hn h' =>
      -- the count would begin where the next byte is no digit
      have hnil := h.takeWhile
      rw [h'.takeWhile_append hds.digits] at hnil
      exact absurd hnil (hds.ne_nil hn)
  | @counted c ds out n ps hc hds hn h ih =>
    generalize htext : ds ++ out = text at h'
    cases h' with
    | byte _ h' =>
      have hnil := h'.takeWhile
      rw [← htext, h.takeWhile_append hds.digits] at hnil
      exact absurd hnil (hds.ne_nil hn)
    | @counted _ ds' out' n' ps' _ hds' hn' h' =>
      have hsame : ds = ds' := by
        rw [← h.takeWhile_append hds.digits, htext, h'.takeWhile_append hds'.digits]
      subst hsame
      have hrest : out = out' := List.append_cancel_left htext
      subst hrest
      rw [ih h', ← hds.number, ← hds'.number]

/-! ## What the encoder writes -/

def pair (r : CChar × ℕ) : CChar × Option ℕ := (r.1, if r.2 = 1 then none else some r.2)

theorem pair_injective : Function.Injective pair := by
  rintro ⟨c, n⟩ ⟨c', n'⟩ h
  rw [pair, pair, Prod.mk.injEq] at h
  obtain ⟨hc, hn⟩ := h
  refine Prod.ext hc ?_
  simp only at hn ⊢
  split at hn <;> split at hn
  · omega
  · cases hn
  · cases hn
  · exact Option.some_inj.mp hn

theorem digitChar_ne_zero {d : ℕ} (hd : d < 10) (hne : d ≠ 0) : digitChar d ≠ 48 := by
  intro heq
  have hint := toInt_digitChar hd
  rw [heq] at hint
  have h48 : (48 : Int8).toInt = 48 := by decide
  omega

theorem isDecimal_decimal (hn : n ≠ 0) : IsDecimal (decimal n) n where
  digits _ := isDigit_of_mem_decimal
  number := number_decimal n
  head := by
    have hne := Nat.digits_ne_nil_iff_ne_zero (b := 10) |>.mpr hn
    rw [decimal, List.head?_reverse, List.getLast?_map, List.getLast?_eq_getLast_of_ne_nil hne]
    intro hzero
    refine digitChar_ne_zero (Nat.digits_lt_base (by omega) (List.getLast_mem hne)) ?_
      (Option.some_inj.mp hzero)
    exact Nat.getLast_digit_ne_zero 10 hn

theorem parses_encoded {rs : List (CChar × ℕ)}
    (hrs : ∀ r ∈ rs, isDigit r.1 = false ∧ 0 < r.2) : Parses (encoded rs) (rs.map pair) := by
  induction rs with
  | nil => exact .nil
  | cons r rs ih =>
    rw [List.forall_mem_cons] at hrs
    obtain ⟨c, n⟩ := r
    obtain ⟨⟨hc, hn⟩, htail⟩ := hrs
    rw [encoded_cons, List.map_cons, pair]
    by_cases hone : n = 1
    · subst hone
      exact .byte hc (ih htail)
    · have htwo : 2 ≤ n := by
        simp only at hn
        omega
      rw [piece_of_two_le htwo, if_neg hone]
      exact .counted hc (isDecimal_decimal (Nat.ne_of_gt hn)) htwo (ih htail)

/-! ## No loss -/

/-- The bytes `compress` writes. -/
def output {σ : Type} (A : Arrays σ) (len : UInt32) (s : σ) : Except Fault (List CChar) := do
  let (size, s') ← compress A len s
  return (A.dst s').take size.toNat

/-- A text without digits stands where `compress` reads, and where it writes there is room for as
many bytes. -/
structure Encodes {σ : Type} (A : Arrays σ) (s : σ) (text : List CChar) : Prop where
  src : ∀ k < text.length, (A.src s)[k]? = text[k]?
  room : text.length ≤ (A.dst s).length
  length_lt : text.length < 2 ^ 32
  digits : ∀ c ∈ text, isDigit c = false

variable {σ τ : Type} {A : Arrays σ} {B : Arrays τ} {s : σ} {t : τ} {text text' : List CChar}

theorem Encodes.output_eq (h : Encodes A s text) :
    output A (UInt32.ofNat text.length) s = .ok (encoded (runs text)) := by
  have hle := length_encoded_runs_le text
  rw [output, compress_eq h.src h.length_lt (hle.trans h.room)]
  change Except.ok _ = _
  rw [dst_written, toNat_ofNat (hle.trans_lt h.length_lt), List.take_zero, List.nil_append,
    List.take_left]

theorem Encodes.parses (h : Encodes A s text) :
    Parses (encoded (runs text)) ((runs text).map pair) := by
  refine parses_encoded fun r hr ↦ ?_
  exact ⟨h.digits r.1 (fst_mem_of_mem_runs hr), pos_of_mem_runs hr⟩

/-- **The encoder loses no information.** Texts without digits that are encoded alike are the same,
and what is written can be read in exactly one way, as the maximal runs of the text. -/
theorem output_lossless (h : Encodes A s text) (h' : Encodes B t text') :
    (output A (UInt32.ofNat text.length) s = output B (UInt32.ofNat text'.length) t →
      text = text') ∧
    ∃ out, output A (UInt32.ofNat text.length) s = .ok out ∧ (∃! ps, Parses out ps) ∧
      ∀ ps, Parses out ps ↔ ∃ rs, MaximalRuns rs ∧ expand rs = text ∧ ps = rs.map pair := by
  constructor
  · intro heq
    rw [h.output_eq, h'.output_eq, Except.ok.injEq] at heq
    have hparses := h.parses
    rw [heq] at hparses
    have hruns : runs text = runs text' :=
      List.map_injective_iff.mpr pair_injective (hparses.unique h'.parses)
    rw [← expand_runs text, hruns, expand_runs]
  · refine ⟨encoded (runs text), h.output_eq, ⟨_, h.parses, fun ps hps ↦ hps.unique h.parses⟩, ?_⟩
    intro ps
    constructor
    · intro hps
      exact ⟨runs text, maximal_runs text, expand_runs text, hps.unique h.parses⟩
    · rintro ⟨rs, hmax, hexpand, rfl⟩
      rw [← runs_eq_iff.mpr ⟨hmax, hexpand⟩]
      exact h.parses

/-- `"aab"` is encoded in place, and with an array of its own. -/
theorem output_lossless_aab :
    (output Arrays.inPlace 3 [97, 97, 98] = output Arrays.apart 3 ([97, 97, 98], [0, 0, 0]) →
      ([97, 97, 98] : List CChar) = [97, 97, 98]) ∧
    ∃ out, output Arrays.inPlace 3 [97, 97, 98] = .ok out ∧ (∃! ps, Parses out ps) ∧
      ∀ ps, Parses out ps ↔ ∃ rs, MaximalRuns rs ∧ expand rs = [97, 97, 98] ∧ ps = rs.map pair := by
  have hdigits : ∀ c ∈ ([97, 97, 98] : List CChar), isDigit c = false := by
    simp only [List.forall_mem_cons]
    exact ⟨rfl, rfl, rfl, by simp⟩
  have hinPlace : Encodes Arrays.inPlace [97, 97, 98] [97, 97, 98] :=
    ⟨fun _ _ ↦ rfl, Nat.le_refl 3, by decide, hdigits⟩
  have happart : Encodes Arrays.apart ([97, 97, 98], [0, 0, 0]) [97, 97, 98] :=
    ⟨fun _ _ ↦ rfl, Nat.le_refl 3, by decide, hdigits⟩
  exact output_lossless hinPlace happart

end Codec

end MinixClipboard
