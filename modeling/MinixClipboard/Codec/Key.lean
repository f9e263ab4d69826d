import MinixClipboard.Codec.Decoder
import Mathlib.Algebra.BigOperators.Group.List.Basic
import Mathlib.Data.List.SplitBy

/-!
# Keys

A key falls into tokens: each byte that is no digit is one, and each row of digits. A token has a
value, which is a byte, and `normalize_key` leaves the values of the tokens in place of the key
(`normalizeKey_eq`). It writes a value once it has read the token, and so stays behind where it
reads.

`Tokenises` says what the tokens of a key are without a way to find them: there is just one way to
cut a key so (`tokenises_iff`).
-/

namespace MinixClipboard

namespace Codec

open Fallible

/-- The bytes of a key that are no digits, and its rows of digits. -/
def tokens (key : List CChar) : List (List CChar) := key.splitBy fun c d ↦ isDigit c && isDigit d

/-- The value of a byte that is no digit. -/
def letterValue (c : CChar) : CChar := if isLower c then c - 97 else c - 65

def tokenValue : List CChar → CChar
  | [] => 0
  | c :: cs => if isDigit c then Int8.ofNat (number 0 (c :: cs) % 26) else letterValue c

def keyValues (key : List CChar) : List CChar := (tokens key).map tokenValue

/-! ## Tokens -/

section Tokens

variable {c : CChar} {key ds : List CChar}

theorem tokens_append_cons (hc : isDigit c = false) (key key' : List CChar) :
    tokens (key ++ c :: key') = tokens key ++ [c] :: tokens key' := by
  have hsingle : tokens [c] = [[c]] := rfl
  have hcons : tokens (c :: key') = tokens [c] ++ tokens key' := by
    refine List.splitBy_append (l := [c]) ?_
    intro x hx y _
    rw [List.getLast?_singleton, Option.mem_some_iff] at hx
    rw [← hx, hc, Bool.false_and]
  rw [tokens, List.splitBy_append_cons key' (fun x _ ↦ by rw [hc, Bool.and_false])]
  change tokens key ++ tokens (c :: key') = _
  rw [hcons, hsingle, List.singleton_append]

theorem tokens_digits (hds : ∀ d ∈ ds, isDigit d = true) (hne : ds ≠ []) : tokens ds = [ds] := by
  refine List.splitBy_of_isChain hne (List.Pairwise.isChain ?_)
  refine List.pairwise_of_forall_mem_list fun c hc d hd ↦ ?_
  rw [hds c hc, hds d hd, Bool.and_self]

theorem ne_nil_of_mem_tokens {t : List CChar} (ht : t ∈ tokens key) : t ≠ [] :=
  List.ne_nil_of_mem_splitBy ht

theorem mem_of_mem_tokens {t : List CChar} (ht : t ∈ tokens key) (hc : c ∈ t) : c ∈ key := by
  rw [← List.flatten_splitBy (fun c d ↦ isDigit c && isDigit d) key]
  exact List.mem_flatten_of_mem ht hc

/-- Bytes of which no two neighbours are digits and not digits are digits, or there is just one. -/
theorem singleton_or_digits {t : List CChar} (hne : t ≠ [])
    (ht : t.IsChain fun c d ↦ (isDigit c && isDigit d) = true) :
    (∃ c, isDigit c = false ∧ t = [c]) ∨ ∀ d ∈ t, isDigit d = true := by
  induction t with
  | nil => exact absurd rfl hne
  | cons c cs ih =>
    cases cs with
    | nil =>
      cases hc : isDigit c with
      | false => exact Or.inl ⟨c, hc, rfl⟩
      | true => exact Or.inr fun d hd ↦ by rwa [List.mem_singleton.mp hd]
    | cons d ds =>
      obtain ⟨hcd, htail⟩ := List.isChain_cons_cons.mp ht
      rw [Bool.and_eq_true] at hcd
      refine Or.inr ?_
      rcases ih (List.cons_ne_nil d ds) htail with ⟨e, he, hds⟩ | hall
      · rw [(List.cons.inj hds).1] at hcd
        simp [he] at hcd
      · intro e he
        rcases List.mem_cons.mp he with rfl | he
        · exact hcd.1
        · exact hall e he

/-- A key is cut into bytes that are no digits and rows of digits that go on as far as they can. -/
structure Tokenises (key : List CChar) (ts : List (List CChar)) : Prop where
  flatten : ts.flatten = key
  token : ∀ t ∈ ts, (∃ c, isDigit c = false ∧ t = [c]) ∨ (t ≠ [] ∧ ∀ d ∈ t, isDigit d = true)
  maximal : ts.IsChain fun t t' ↦ ¬∀ d ∈ t ++ t', isDigit d = true

theorem tokenises_tokens (key : List CChar) : Tokenises key (tokens key) where
  flatten := List.flatten_splitBy _ key
  token t ht := by
    have hne := ne_nil_of_mem_tokens ht
    exact (singleton_or_digits hne (List.isChain_of_mem_splitBy ht)).imp_right fun hall ↦
      ⟨hne, hall⟩
  maximal := by
    refine (List.isChain_getLast_head_splitBy _ key).imp fun t t' h hall ↦ ?_
    obtain ⟨hne, hne', hfalse⟩ := h
    rw [hall _ (List.mem_append_left _ (List.getLast_mem hne)),
      hall _ (List.mem_append_right _ (List.head_mem hne'))] at hfalse
    cases hfalse

/-- **Tokens.** A key is cut in one way only. -/
theorem tokenises_iff {ts : List (List CChar)} : Tokenises key ts ↔ ts = tokens key := by
  constructor
  · intro h
    have hne : ∀ t ∈ ts, t ≠ [] := by
      intro t ht
      rcases h.token t ht with ⟨c, -, rfl⟩ | ⟨hne, -⟩
      · exact List.cons_ne_nil c []
      · exact hne
    refine (List.splitBy_eq_iff.mpr ⟨h.flatten.symm, fun hnil ↦ hne [] hnil rfl, ?_, ?_⟩).symm
    · intro t ht
      rcases h.token t ht with ⟨c, -, rfl⟩ | ⟨-, hall⟩
      · exact .singleton c
      · refine List.Pairwise.isChain (List.pairwise_of_forall_mem_list fun c hc d hd ↦ ?_)
        rw [hall c hc, hall d hd, Bool.and_self]
    · -- where two tokens meet there is a byte that is no digit: two rows of digits would be one
      refine List.IsChain.imp_of_mem_imp (fun t t' ht ht' hmax ↦ ?_) h.maximal
      refine ⟨hne t ht, hne t' ht', ?_⟩
      rcases h.token t ht with ⟨c, hc, rfl⟩ | ⟨-, hall⟩
      · rw [List.getLast_singleton, hc, Bool.false_and]
      rcases h.token t' ht' with ⟨c, hc, rfl⟩ | ⟨-, hall'⟩
      · rw [List.head_singleton, hc, Bool.and_false]
      · exact absurd (List.forall_mem_append.mpr ⟨hall, hall'⟩) hmax
  · rintro rfl
    exact tokenises_tokens key

theorem length_tokens_le (key : List CChar) : (tokens key).length ≤ key.length := by
  have hsum := congrArg List.length (List.flatten_splitBy (fun c d ↦ isDigit c && isDigit d) key)
  rw [List.length_flatten] at hsum
  rw [← hsum, ← List.length_map List.length]
  refine List.length_le_sum_of_one_le _ fun n hn ↦ ?_
  obtain ⟨t, ht, rfl⟩ := List.mem_map.mp hn
  exact List.length_pos_iff.mpr (ne_nil_of_mem_tokens ht)

end Tokens

/-! ## Values -/

section Values

variable {c : CChar} {key ds : List CChar}

@[simp] theorem keyValues_nil : keyValues [] = [] := rfl

theorem keyValues_append_cons (hc : isDigit c = false) (key key' : List CChar) :
    keyValues (key ++ c :: key') = keyValues key ++ letterValue c :: keyValues key' := by
  rw [keyValues, tokens_append_cons hc, List.map_append, List.map_cons, tokenValue,
    if_neg (by simp [hc])]
  rfl

theorem keyValues_digits (hds : ∀ d ∈ ds, isDigit d = true) (hne : ds ≠ []) :
    keyValues ds = [Int8.ofNat (number 0 ds % 26)] := by
  rw [keyValues, tokens_digits hds hne, List.map_singleton]
  obtain ⟨d, ds, rfl⟩ := List.exists_cons_of_ne_nil hne
  rw [tokenValue, if_pos (hds d List.mem_cons_self)]

theorem length_keyValues_le (key : List CChar) : (keyValues key).length ≤ key.length := by
  rw [keyValues, List.length_map]
  exact length_tokens_le key

theorem keyValues_ne_nil (hkey : key ≠ []) : keyValues key ≠ [] := by
  rw [keyValues, ne_eq, List.map_eq_nil_iff]
  exact List.splitBy_ne_nil.mpr hkey

end Values

/-! ## The range of the values -/

section Range

variable {c : CChar} {ds : List CChar}

theorem sub_lt_alphabetSize {base : CChar} (hbase : 0 ≤ base) (hle : base ≤ c)
    (hlt : c.toInt < base.toInt + 26) : 0 ≤ c - base ∧ c - base < 26 := by
  have hsub := Int8.toInt_sub_of_le c base hbase hle
  have h26 : (26 : Int8).toInt = 26 := by decide
  have hzero : (0 : Int8).toInt = 0 := by decide
  rw [Int8.le_iff_toInt_le] at hle
  rw [Int8.le_iff_toInt_le, Int8.lt_iff_toInt_lt, hsub, h26, hzero]
  omega

theorem letterValue_lt (hc : isLower c = true ∨ isUpper c = true) :
    0 ≤ letterValue c ∧ letterValue c < 26 := by
  have h90 : (90 : Int8).toInt = (65 : Int8).toInt + 25 := by decide
  have h122 : (122 : Int8).toInt = (97 : Int8).toInt + 25 := by decide
  rw [letterValue]
  split
  · rename_i hlower
    rw [isLower, Bool.and_eq_true, decide_eq_true_iff, decide_eq_true_iff] at hlower
    have hhi := Int8.le_iff_toInt_le.mp hlower.2
    exact sub_lt_alphabetSize (by decide) hlower.1 (by omega)
  · rename_i hlower
    have hupper := hc.resolve_left hlower
    rw [isUpper, Bool.and_eq_true, decide_eq_true_iff, decide_eq_true_iff] at hupper
    have hhi := Int8.le_iff_toInt_le.mp hupper.2
    exact sub_lt_alphabetSize (by decide) hupper.1 (by omega)

theorem tokenValue_lt_of_digits (hds : ∀ d ∈ ds, isDigit d = true) :
    0 ≤ tokenValue ds ∧ tokenValue ds < 26 := by
  cases ds with
  | nil => decide
  | cons d ds =>
    have hlt : number 0 (d :: ds) % 26 < 26 := Nat.mod_lt _ (by decide)
    have h26 : (26 : Int8).toInt = 26 := by decide
    rw [tokenValue, if_pos (hds d List.mem_cons_self), Int8.le_iff_toInt_le, Int8.lt_iff_toInt_lt,
      Int8.toInt_ofNat_of_lt (by omega), h26]
    change (0 : ℤ) ≤ _ ∧ _
    omega

end Range

/-! ## The loop -/

variable {σ : Type} {A : Arrays σ} {s : σ} {i j count : ℕ} {parsing : Bool} {ds l : List CChar}

/-- What the loop knows of the row of digits it is in. -/
structure Reading (parsing : Bool) (count : ℕ) (ds : List CChar) : Prop where
  digits : ∀ d ∈ ds, isDigit d = true
  parsing_iff : parsing = true ↔ ds ≠ []
  count_eq : parsing = true → count = number 0 ds % 26
  count_lt : count < 26

/-- Outside a row of digits, the count is left over from the last one. -/
theorem Reading.start (hcount : count < 26) : Reading false count [] where
  digits := by simp
  parsing_iff := by simp
  count_eq := by simp
  count_lt := hcount

theorem Reading.digit {c : CChar} (h : Reading parsing count ds) (hc : isDigit c = true) :
    Reading true (((if parsing then 10 * count else 0) + digit c) % 26) (ds ++ [c]) where
  digits d hd := by
    rcases List.mem_append.mp hd with hd | hd
    · exact h.digits d hd
    · rwa [List.mem_singleton.mp hd]
  parsing_iff := by simp
  count_eq _ := by
    rw [number_append]
    cases parsing with
    | true =>
      rw [if_pos rfl, h.count_eq rfl]
      exact number_mod (number 0 ds) 26 [c]
    | false =>
      have hds : ds = [] := by simpa using h.parsing_iff
      rw [hds, if_neg Bool.false_ne_true]
      rfl
  count_lt := Nat.mod_lt _ (by decide)

theorem finishPushNumber_eq (h : Reading parsing count ds) (hj : j + (keyValues ds).length < 2 ^ 32)
    (hroom : j + (keyValues ds).length ≤ (A.dst s).length) :
    finishPushNumber A (UInt32.ofNat j) (asChar (UInt32.ofNat count)) parsing s
      = .ok (UInt32.ofNat (j + (keyValues ds).length), written A s j (keyValues ds)) := by
  have hcount := h.count_lt
  cases parsing with
  | true =>
    rw [keyValues_digits h.digits (h.parsing_iff.mp rfl), List.length_singleton] at hj hroom ⊢
    rw [← h.count_eq rfl, finishPushNumber, if_pos rfl, asChar_eq, toNat_ofNat (by omega)]
    exact pushChar_ofNat (by omega) (by omega) _
  | false =>
    have hds : ds = [] := by simpa using h.parsing_iff
    rw [hds, keyValues_nil, written_nil]
    rfl

/-- **The loop of `normalize_key`.** In the row of digits `ds`, and with `l` to read from `i` on, it
writes the values of the tokens of all this. -/
theorem normalizeFrom_eq (h : Reading parsing count ds)
    (hsrc : ∀ k < l.length, (A.src s)[i + k]? = l[k]?) (hlt : i + l.length < 2 ^ 32)
    (hj : j + (keyValues ds).length ≤ i)
    (hroom : j + (keyValues (ds ++ l)).length ≤ (A.dst s).length) :
    normalizeFrom A l.length (UInt32.ofNat i) (UInt32.ofNat count) (UInt32.ofNat j) parsing s
      = .ok (UInt32.ofNat (j + (keyValues (ds ++ l)).length),
        written A s j (keyValues (ds ++ l))) := by
  induction l generalizing s i j count parsing ds with
  | nil =>
    rw [List.append_nil] at hroom ⊢
    rw [List.length_nil, normalizeFrom]
    exact finishPushNumber_eq h (by omega) hroom
  | cons c cs ih =>
    rw [List.length_cons] at hlt hsrc ⊢
    obtain ⟨hread, hrest⟩ := getElem?_of_cons hsrc
    rw [normalizeFrom, bind_ok (peek_ofNat (by omega) hread), ofNat_add_one]
    by_cases hc : isDigit c = true
    · have hone : (keyValues (ds ++ [c])).length = 1 := by
        rw [keyValues_digits (h.digit hc).digits (by simp), List.length_singleton]
      rw [List.append_cons] at hroom ⊢
      rw [if_pos hc]
      simp only [count_digit h.count_lt hc]
      exact ih (h.digit hc) hrest (by omega) (by omega) hroom
    · rw [Bool.not_eq_true] at hc
      rw [keyValues_append_cons hc, List.append_cons, List.length_append,
        ← Nat.add_assoc] at hroom ⊢
      have hwrite : j + (keyValues ds ++ [letterValue c]).length ≤ (A.dst s).length :=
        (Nat.le_add_right _ _).trans hroom
      have hlen : (keyValues ds ++ [letterValue c]).length = (keyValues ds).length + 1 := by simp
      have hfinish : j + (keyValues ds).length < (A.dst s).length := by omega
      rw [if_neg (by simp [hc]), bind_ok (finishPushNumber_eq h (by omega) hfinish.le)]
      refine (bind_ok (pushChar_ofNat (by omega)
        (hfinish.trans_eq (length_dst_written hfinish.le).symm) (letterValue c)) _).trans ?_
      rw [written_written hfinish.le, Nat.add_assoc, ← hlen]
      -- what was written lies before `i`, so the rest can still be read
      refine (ih (Reading.start h.count_lt) (fun k hk ↦ ?_) (by omega)
        (by rw [hlen, keyValues_nil, List.length_nil]; omega)
        (hroom.trans_eq (length_dst_written hwrite).symm)).trans ?_
      · rw [src_written hwrite (by omega)]
        exact hrest k hk
      · rw [List.nil_append, written_written hwrite]

/-- **Normalising in place.** `normalize_key` leaves the values of the tokens of the key, and their
number, where the key was. -/
theorem normalizeKey_eq {key rest : List CChar} (hlt : key.length < 2 ^ 32) :
    normalizeKey (UInt32.ofNat key.length) (key ++ rest)
      = .ok (UInt32.ofNat (keyValues key).length,
        written Arrays.inPlace (key ++ rest) 0 (keyValues key)) := by
  have hlen : (keyValues key).length ≤ (key ++ rest).length :=
    (length_keyValues_le key).trans (List.length_append ▸ Nat.le_add_right _ _)
  have hloop := normalizeFrom_eq (A := Arrays.inPlace) (s := key ++ rest) (i := 0) (j := 0)
    (l := key) (Reading.start (Nat.zero_lt_succ 25))
    (fun k hk ↦ by rw [Nat.zero_add]; exact List.getElem?_append_left hk) (by omega)
    (Nat.le_refl 0)
    (by rw [List.nil_append, Nat.zero_add]; exact hlen)
  rw [List.nil_append, Nat.zero_add] at hloop
  rw [normalizeKey, toNat_ofNat hlt]
  exact hloop

/-- **Normalising is faithful.** In place of a key there are then the values of its tokens: of the
bytes that are no digits, and of the rows of digits. There is at least one of them, and there are no
more than the key has bytes; where they come from letters and digits they are below 26. -/
theorem normalizeKey_tokens {key rest : List CChar} (hne : key ≠ [])
    (hmax : key.length ≤ maxSize) :
    ∃ ts, (∀ ts', Tokenises key ts' ↔ ts' = ts) ∧
      normalizeKey (UInt32.ofNat key.length) (key ++ rest)
        = .ok (UInt32.ofNat ts.length, ts.map tokenValue ++ (key ++ rest).drop ts.length) ∧
      1 ≤ ts.length ∧ ts.length ≤ key.length ∧
      (∀ c, [c] ∈ ts → isLower c = true ∨ isUpper c = true →
        0 ≤ tokenValue [c] ∧ tokenValue [c] < 26) ∧
      ∀ ds ∈ ts, (∀ d ∈ ds, isDigit d = true) → 0 ≤ tokenValue ds ∧ tokenValue ds < 26 := by
  have hlt : key.length < 2 ^ 32 := hmax.trans_lt (by decide)
  have hnormalize := @normalizeKey_eq key rest hlt
  rw [written_inPlace, keyValues, List.length_map] at hnormalize
  refine ⟨tokens key, fun ts' ↦ tokenises_iff, hnormalize, ?_, length_tokens_le key, ?_, ?_⟩
  · exact List.length_pos_iff.mpr (List.splitBy_ne_nil.mpr hne)
  · intro c _ hc
    by_cases hdigit : isDigit c = true
    · exact tokenValue_lt_of_digits fun d hd ↦ by rwa [List.mem_singleton.mp hd]
    · rw [tokenValue, if_neg hdigit]
      exact letterValue_lt hc
  · intro ds _ hds
    exact tokenValue_lt_of_digits hds

/-- The key `"a12b"` has three tokens. -/
theorem normalizeKey_tokens_a12b :
    ∃ ts, (∀ ts', Tokenises [97, 49, 50, 98] ts' ↔ ts' = ts) ∧
      normalizeKey 4 [97, 49, 50, 98]
        = .ok (UInt32.ofNat ts.length, ts.map tokenValue ++ [97, 49, 50, 98].drop ts.length) ∧
      1 ≤ ts.length ∧ ts.length ≤ 4 ∧
      (∀ c, [c] ∈ ts → isLower c = true ∨ isUpper c = true →
        0 ≤ tokenValue [c] ∧ tokenValue [c] < 26) ∧
      ∀ ds ∈ ts, (∀ d ∈ ds, isDigit d = true) → 0 ≤ tokenValue ds ∧ tokenValue ds < 26 :=
  @normalizeKey_tokens [97, 49, 50, 98] [] (List.cons_ne_nil _ _) (by decide)

end Codec

end MinixClipboard
