import MinixClipboard.Codec.Encoder

/-!
# The decoder

`decodedFrom` is what the loop of `decompress` writes, from any point on, whatever it reads
(`decompressFrom_eq`); `decoded` is what `decompress` writes in all. Nothing limits it, and with
less room than this the decoder overruns its array (`decompress_error`).

What it reads is in most cases an encoding, of runs of bytes that are no digits. Then it writes
these runs again, but not with their lengths: a length is kept modulo `ALPHABET_SIZE` while it is
read, and a byte is written before its length is known. A run of `n` comes back as a run of
`max 1 (n % 26)` (`decoded_encoded`).
-/

namespace MinixClipboard

namespace Codec

open Fallible Runs

/-- What the loop of `decompress` writes while it reads these bytes. It is `started` when it has
written something already. -/
def decodedFrom (started : Bool) (count : ℕ) (lastChar : CChar) (parsing : Bool) :
    List CChar → List CChar
  | [] => List.replicate (count - 1) lastChar
  | c :: cs =>
    if isDigit c then
      decodedFrom started (((if parsing then 10 * count else 0) + digit c) % 26) lastChar true cs
    else if started then List.replicate (count - 1) lastChar ++ c :: decodedFrom true 0 c false cs
    else c :: decodedFrom true count c parsing cs

def decoded (l : List CChar) : List CChar := decodedFrom false 0 0 false l

theorem length_decodedFrom_le {count : ℕ} (hcount : count < 26) (started : Bool) (lastChar : CChar)
    (parsing : Bool) (l : List CChar) :
    (decodedFrom started count lastChar parsing l).length ≤ count - 1 + 25 * l.length := by
  induction l generalizing started count lastChar parsing with
  | nil => rw [decodedFrom, List.length_replicate, List.length_nil]; omega
  | cons c cs ih =>
    rw [decodedFrom, List.length_cons]
    split
    · have hnew : ((if parsing then 10 * count else 0) + digit c) % 26 < 26 :=
        Nat.mod_lt _ (Nat.zero_lt_succ 25)
      have hrest := ih hnew started lastChar true
      omega
    split
    · have hrest := ih (Nat.zero_lt_succ 25) true c false
      rw [List.length_append, List.length_replicate, List.length_cons]
      omega
    · have hrest := ih hcount true c parsing
      rw [List.length_cons]
      omega

theorem length_decoded_le (l : List CChar) : (decoded l).length ≤ 25 * l.length :=
  (length_decodedFrom_le (Nat.zero_lt_succ 25) false 0 false l).trans_eq (Nat.zero_add _)

/-! ## The loop -/

section Loop

variable {σ : Type} {A : Arrays σ} {s : σ} {p count : ℕ} {c : CChar}

theorem pushDecompressed_eq (hp : p + (List.replicate (count - 1) c).length < 2 ^ 32)
    (hroom : p + (List.replicate (count - 1) c).length ≤ (A.dst s).length) :
    pushDecompressed A c count (UInt32.ofNat p) s
      = .ok (UInt32.ofNat (p + (List.replicate (count - 1) c).length),
        written A s p (List.replicate (count - 1) c)) := by
  induction count generalizing p s with
  | zero =>
    rw [List.replicate_zero, written_nil]
    rfl
  | succ count ih =>
    cases count with
    | zero =>
      rw [List.replicate_zero, written_nil]
      rfl
    | succ count =>
      simp only [Nat.add_sub_cancel, List.length_replicate] at hp hroom ih ⊢
      have hroom' : p + [c].length ≤ (A.dst s).length := by rw [List.length_singleton]; omega
      rw [pushDecompressed, bind_ok (pushChar_ofNat (by omega) (by omega) c),
        ih (by omega) (by rw [length_dst_written hroom']; omega), List.replicate_succ,
        Nat.add_right_comm, ← Nat.add_assoc]
      exact congrArg (fun s' ↦ Except.ok (_, s')) (written_written hroom')

theorem count_digit {parsing : Bool} (hcount : count < 26) (hc : isDigit c = true) :
    ((if parsing then 10 * UInt32.ofNat count else 0) + c.toInt32.toUInt32 - 48) % 26
      = UInt32.ofNat (((if parsing then 10 * count else 0) + digit c) % 26) := by
  have hdigit := digit_lt hc
  have hten : (if parsing then 10 * UInt32.ofNat count else 0)
      = UInt32.ofNat (if parsing then 10 * count else 0) := by
    split
    · exact (UInt32.ofNat_mul 10 count).symm
    · rfl
  have hsmall : (if parsing then 10 * count else 0) < 260 := by split <;> omega
  have hsum : (if parsing then 10 * count else 0) + digit c < 2 ^ 32 := by omega
  have hsize : (26 : UInt32).toNat = 26 := rfl
  rw [hten, ← UInt32.toNat_inj, UInt32.toNat_mod, toNat_add_sub_digit hc, toNat_ofNat (by omega),
    toNat_ofNat (by omega), hsize, Nat.mod_eq_of_lt hsum]

variable {i n : ℕ} {pos : UInt32} {lastChar : CChar} {started parsing : Bool}

theorem decompressFrom_digit (hi : i < 2 ^ 32) (hread : (A.src s)[i]? = some c)
    (hc : isDigit c = true) (hcount : count < 26) :
    decompressFrom A (n + 1) (UInt32.ofNat i) (UInt32.ofNat count) pos lastChar parsing s
      = decompressFrom A n (UInt32.ofNat (i + 1))
        (UInt32.ofNat (((if parsing then 10 * count else 0) + digit c) % 26)) pos lastChar true
        s := by
  rw [decompressFrom, bind_ok (peek_ofNat hi hread), if_neg (by simp [hc]), ofNat_add_one]
  simp only [count_digit hcount hc]

/-- A round that reads anything else writes it, behind what is left of the last run. Before the
first byte there is no last run. -/
theorem decompressFrom_char (hi : i < 2 ^ 32) (hread : (A.src s)[i]? = some c)
    (hc : ¬isDigit c = true) (hcount : count < 26) (hp : p < 2 ^ 32)
    (hstarted : started = decide (0 < p)) :
    decompressFrom A (n + 1) (UInt32.ofNat i) (UInt32.ofNat count) (UInt32.ofNat p) lastChar
        parsing s
      = (if started then do
          let pos ← pushDecompressed A lastChar count (UInt32.ofNat p)
          decompressFrom A n (UInt32.ofNat (i + 1)) 0 (← pushChar A pos c) c false
        else do
          decompressFrom A n (UInt32.ofNat (i + 1)) (UInt32.ofNat count)
            (← pushChar A (UInt32.ofNat p) c) c parsing) s := by
  have hpos : (UInt32.ofNat p > 0) ↔ started = true := by
    rw [gt_iff_lt, UInt32.lt_iff_toNat_lt, toNat_ofNat hp, hstarted, decide_eq_true_iff]
    rfl
  rw [decompressFrom, bind_ok (peek_ofNat hi hread), ofNat_add_one, if_pos (by simpa using hc),
    toNat_ofNat (by omega)]
  cases started with
  | true => rw [if_pos (hpos.mpr rfl), if_pos rfl]
  | false => rw [if_neg (mt hpos.mp Bool.false_ne_true), if_neg Bool.false_ne_true]

end Loop

/-- **The decoder's loop.** It writes `decodedFrom`. -/
theorem decompressFrom_eq {s : List CChar × List CChar} {i p count : ℕ} {lastChar : CChar}
    {started parsing : Bool} {l : List CChar} (hsrc : ∀ k < l.length, s.1[i + k]? = l[k]?)
    (hlt : i + l.length < 2 ^ 32) (hcount : count < 26) (hstarted : started = decide (0 < p))
    (hp : p + (decodedFrom started count lastChar parsing l).length < 2 ^ 32)
    (hroom : p + (decodedFrom started count lastChar parsing l).length ≤ s.2.length) :
    decompressFrom Arrays.apart l.length (UInt32.ofNat i) (UInt32.ofNat count) (UInt32.ofNat p)
        lastChar parsing s
      = .ok ((), written Arrays.apart s p (decodedFrom started count lastChar parsing l)) := by
  induction l generalizing s i p count lastChar started parsing with
  | nil =>
    rw [decodedFrom] at hp hroom ⊢
    rw [List.length_nil, decompressFrom, toNat_ofNat (by omega),
      bind_ok (pushDecompressed_eq hp hroom)]
    rfl
  | cons c cs ih =>
    rw [List.length_cons] at hlt hsrc ⊢
    obtain ⟨hread, hrest⟩ := getElem?_of_cons hsrc
    rw [decodedFrom] at hp hroom ⊢
    by_cases hc : isDigit c = true
    · rw [if_pos hc] at hp hroom ⊢
      rw [decompressFrom_digit (A := Arrays.apart) (by omega) hread hc hcount]
      exact ih hrest (by omega) (Nat.mod_lt _ (by decide)) hstarted hp hroom
    rw [if_neg hc] at hp hroom ⊢
    rw [decompressFrom_char (A := Arrays.apart) (by omega) hread hc hcount (by omega) hstarted]
    -- any other byte is written, behind what is left of the last run
    have hnext : ∀ reps count' parsing' pos, pos = UInt32.ofNat (p + (reps ++ [c]).length) →
        count' < 26 →
        p + (reps ++ c :: decodedFrom true count' c parsing' cs).length < 2 ^ 32 →
        p + (reps ++ c :: decodedFrom true count' c parsing' cs).length ≤ s.2.length →
        decompressFrom Arrays.apart cs.length (UInt32.ofNat (i + 1)) (UInt32.ofNat count') pos c
            parsing' (written Arrays.apart s p (reps ++ [c]))
          = .ok ((), written Arrays.apart s p
            (reps ++ c :: decodedFrom true count' c parsing' cs)) := by
      intro reps count' parsing' pos hpos hcount' hp' hroom'
      have hbehind : true = decide (0 < p + (reps ++ [c]).length) := by simp
      rw [List.append_cons, List.length_append, ← Nat.add_assoc] at hp' hroom'
      have hfit : p + (reps ++ [c]).length ≤ (Arrays.apart.dst s).length :=
        (Nat.le_add_right _ _).trans hroom'
      rw [hpos, ih (by exact hrest) (by omega) hcount' hbehind hp'
        (hroom'.trans_eq (length_dst_written hfit).symm), written_written hfit, ← List.append_cons]
    -- only the first such byte finds no run to finish
    cases started with
    | true =>
      rw [if_pos rfl] at hp hroom ⊢
      have hpushed := @pushDecompressed_eq _ Arrays.apart s p count lastChar
      generalize List.replicate (count - 1) lastChar = reps at hp hroom hpushed ⊢
      have hlen : (reps ++ c :: decodedFrom true 0 c false cs).length
          = reps.length + ((decodedFrom true 0 c false cs).length + 1) := List.length_append
      have hfit : p + reps.length < (Arrays.apart.dst s).length := by
        change _ < s.2.length
        omega
      rw [if_pos rfl, bind_ok (hpushed (by omega) hfit.le),
        bind_ok (pushChar_ofNat (by omega) (hfit.trans_eq (length_dst_written hfit.le).symm) c),
        written_written hfit.le]
      exact hnext reps 0 false _ (by rw [List.length_append]; rfl) (by omega) hp hroom
    | false =>
      rw [if_neg Bool.false_ne_true] at hp hroom ⊢
      have hfit : p < s.2.length := by rw [List.length_cons] at hroom; omega
      rw [if_neg Bool.false_ne_true, bind_ok (pushChar_ofNat (by omega) hfit c)]
      exact hnext [] count parsing _ (by simp) hcount hp hroom

/-- **The decoder.** `decompress` writes `decoded` of what it reads. -/
theorem decompress_eq {s : List CChar × List CChar} {l : List CChar}
    (hsrc : ∀ k < l.length, s.1[k]? = l[k]?) (hlt : l.length < 2 ^ 32)
    (hp : (decoded l).length < 2 ^ 32) (hroom : (decoded l).length ≤ s.2.length) :
    decompress Arrays.apart (UInt32.ofNat l.length) s
      = .ok ((), written Arrays.apart s 0 (decoded l)) := by
  rw [decompress, toNat_ofNat hlt]
  exact decompressFrom_eq (i := 0) (p := 0) (by simpa using hsrc) (by omega) (Nat.zero_lt_succ 25)
    (by simp) (by rw [Nat.zero_add]; exact hp) (by rw [Nat.zero_add]; exact hroom)

/-! ## Running out of room -/

section Room

variable {σ : Type} {A : Arrays σ} {s : σ} {p n : ℕ} {c : CChar}

theorem pushChar_error (hp : p < 2 ^ 32) (hroom : (A.dst s).length ≤ p) (c : CChar) :
    pushChar A (UInt32.ofNat p) c s = .error .pointer := by
  rw [pushChar, bind_ok (get_apply s), toNat_ofNat hp, if_neg (Nat.not_lt.mpr hroom)]
  rfl

theorem pushDecompressed_error (hp : p ≤ (A.dst s).length) (hlt : (A.dst s).length < 2 ^ 32)
    (hroom : (A.dst s).length < p + (n - 1)) :
    pushDecompressed A c n (UInt32.ofNat p) s = .error .pointer := by
  induction n generalizing p s with
  | zero => omega
  | succ n ih =>
    cases n with
    | zero => omega
    | succ n =>
      rw [pushDecompressed]
      rcases Nat.lt_or_ge p (A.dst s).length with hfit | hfull
      · have hfit' : p + [c].length ≤ (A.dst s).length := hfit
        have hsame := length_dst_written hfit'
        rw [bind_ok (pushChar_ofNat (by omega) hfit c)]
        exact ih (by rw [hsame]; exact hfit) (by rw [hsame]; exact hlt) (by rw [hsame]; omega)
      · exact bind_error (pushChar_error (by omega) hfull c) _

end Room

/-- Where what the loop writes does not fit, it writes behind its array. -/
theorem decompressFrom_error {s : List CChar × List CChar} {i p n : ℕ} {lastChar : CChar}
    {started parsing : Bool} {b : List CChar} (hsrc : ∀ k < b.length, s.1[i + k]? = b[k]?)
    (hlt : i + b.length < 2 ^ 32) (hn : n < 26) (hstarted : started = decide (0 < p))
    (hp : p ≤ s.2.length) (hsize : s.2.length < 2 ^ 32)
    (hroom : s.2.length < p + (decodedFrom started n lastChar parsing b).length) :
    decompressFrom Arrays.apart b.length (UInt32.ofNat i) (UInt32.ofNat n) (UInt32.ofNat p)
        lastChar parsing s = .error .pointer := by
  induction b generalizing s i p n lastChar started parsing with
  | nil =>
    rw [decodedFrom, List.length_replicate] at hroom
    rw [List.length_nil, decompressFrom, toNat_ofNat (by omega)]
    exact bind_error (pushDecompressed_error (A := Arrays.apart) hp hsize hroom) _
  | cons c cs ih =>
    rw [List.length_cons] at hlt hsrc ⊢
    obtain ⟨hread, hrest⟩ := getElem?_of_cons hsrc
    rw [decodedFrom] at hroom
    by_cases hc : isDigit c = true
    · rw [if_pos hc] at hroom
      rw [decompressFrom_digit (A := Arrays.apart) (by omega) hread hc hn]
      exact ih hrest (by omega) (Nat.mod_lt _ (by decide)) hstarted hp hsize hroom
    rw [if_neg hc] at hroom
    rw [decompressFrom_char (A := Arrays.apart) (by omega) hread hc hn (by omega) hstarted]
    -- the byte itself, from a position behind the run before it
    have hbyte : ∀ {t : List CChar × List CChar} {q : ℕ} (n' : ℕ) (parsing' : Bool), t.1 = s.1 →
        t.2.length = s.2.length → q ≤ s.2.length → n' < 26 →
        s.2.length < q + (c :: decodedFrom true n' c parsing' cs).length →
        (do decompressFrom Arrays.apart cs.length (UInt32.ofNat (i + 1)) (UInt32.ofNat n')
              (← pushChar Arrays.apart (UInt32.ofNat q) c) c parsing') t = .error .pointer := by
      intro t q n' parsing' hsrc' hlen hq hn' hroom'
      rw [List.length_cons] at hroom'
      rcases Nat.lt_or_ge q s.2.length with hfit | hfull
      · have hfit' : q + [c].length ≤ (Arrays.apart.dst t).length :=
          (Nat.succ_le_of_lt hfit).trans_eq hlen.symm
        have hsame : (written Arrays.apart t q [c]).2.length = s.2.length :=
          (length_dst_written hfit').trans hlen
        have hbegun : true = decide (0 < q + 1) := by simp
        rw [bind_ok (pushChar_ofNat (by omega) (hfit.trans_eq hlen.symm) c)]
        exact ih (hsrc'.symm ▸ hrest) (by omega) hn' hbegun (hsame.symm ▸ hfit)
          (hsame.symm ▸ hsize) (by rw [hsame]; omega)
      · exact bind_error (pushChar_error (by omega) (hlen.symm ▸ hfull) c) _
    cases started with
    | false =>
      rw [if_neg Bool.false_ne_true] at hroom
      rw [if_neg Bool.false_ne_true]
      exact hbyte n parsing rfl rfl hp hn hroom
    | true =>
      rw [if_pos rfl, List.length_append, List.length_replicate, ← Nat.add_assoc] at hroom
      rw [if_pos rfl]
      -- the run before it does not fit, or it does and the byte does not
      rcases Nat.lt_or_ge s.2.length (p + (n - 1)) with hover | hfit
      · exact bind_error (pushDecompressed_error (A := Arrays.apart) hp hsize hover) _
      · have hfit' : p + (List.replicate (n - 1) lastChar).length
          ≤ (Arrays.apart.dst s).length := by
          rw [List.length_replicate]
          exact hfit
        rw [bind_ok (pushDecompressed_eq (by rw [List.length_replicate]; omega) hfit'),
          List.length_replicate]
        exact hbyte 0 false rfl (length_dst_written hfit') hfit (by decide) hroom

/-- **Overrunning.** With less room than this takes, `decompress` writes behind its array. -/
theorem decompress_error {s : List CChar × List CChar} {b : List CChar}
    (hsrc : ∀ k < b.length, s.1[k]? = b[k]?) (hlt : b.length < 2 ^ 32) (hsize : s.2.length < 2 ^ 32)
    (hroom : s.2.length < (decoded b).length) :
    decompress Arrays.apart (UInt32.ofNat b.length) s = .error .pointer := by
  rw [decompress, toNat_ofNat hlt]
  have hfresh : false = decide (0 < 0) := by simp
  exact decompressFrom_error (i := 0) (p := 0) (n := 0) (by simpa using hsrc) (by omega) (by decide)
    hfresh (Nat.zero_le _) hsize (by rw [Nat.zero_add]; exact hroom)

/-! ## Decoding what was encoded -/

/-- The length with which a run comes back. -/
def recovered (n : ℕ) : ℕ := max 1 (n % 26)

theorem recovered_le {n : ℕ} (hn : 0 < n) : recovered n ≤ n := by
  rw [recovered]
  omega

theorem recovered_eq_iff {n : ℕ} (hn : 0 < n) : recovered n = n ↔ n < 26 := by
  rw [recovered]
  omega

section Encoded

variable {started parsing : Bool} {count : ℕ} {c lastChar : CChar} {cs : List CChar}

theorem decodedFrom_cons (hc : isDigit c = false) :
    decodedFrom true count lastChar parsing (c :: cs)
      = List.replicate (count - 1) lastChar ++ c :: decodedFrom true 0 c false cs := by
  rw [decodedFrom, if_neg (by simp [hc]), if_pos rfl]

/-- The first byte finds no run before it. -/
theorem decoded_cons (hc : isDigit c = false) :
    decoded (c :: cs) = c :: decodedFrom true 0 c false cs := by
  rw [decoded, decodedFrom, if_neg (by simp [hc]), if_neg Bool.false_ne_true]

theorem decodedFrom_digits {m : ℕ} {ds : List CChar} (hds : ∀ d ∈ ds, isDigit d = true) :
    decodedFrom started (m % 26) lastChar true (ds ++ cs)
      = decodedFrom started (number m ds % 26) lastChar true cs := by
  induction ds generalizing m with
  | nil => rfl
  | cons d ds ih =>
    rw [List.forall_mem_cons] at hds
    rw [List.cons_append, decodedFrom, if_pos hds.1, if_pos rfl, ih hds.2, ← number_mod m 26]
    rfl

theorem decodedFrom_decimal {n : ℕ} (hn : n ≠ 0) :
    decodedFrom started count lastChar false (decimal n ++ cs)
      = decodedFrom started (n % 26) lastChar true cs := by
  have hdigits : ∀ d ∈ decimal n, isDigit d = true := fun d hd ↦ isDigit_of_mem_decimal hd
  have hnumber := number_decimal n
  obtain ⟨d, ds, hds⟩ := List.exists_cons_of_ne_nil (decimal_ne_nil hn)
  rw [hds] at hdigits hnumber ⊢
  rw [List.forall_mem_cons] at hdigits
  rw [List.cons_append, decodedFrom, if_pos hdigits.1, if_neg Bool.false_ne_true,
    decodedFrom_digits hdigits.2]
  conv_rhs => rw [← hnumber]
  rfl

/-- The piece of a run, when what is behind it comes back as `out`. -/
theorem decodedFrom_piece {n : ℕ} {out : List CChar} (hn : 0 < n)
    (hout : ∀ count parsing,
      decodedFrom true count c parsing cs = List.replicate (count - 1) c ++ out) :
    ∃ ds, piece (c, n) = c :: ds ∧
      c :: decodedFrom true 0 c false (ds ++ cs) = List.replicate (recovered n) c ++ out := by
  by_cases hone : n = 1
  · subst hone
    exact ⟨[], rfl, congrArg (c :: ·) (hout 0 false)⟩
  · refine ⟨decimal n, piece_of_two_le (by omega), ?_⟩
    have hrecovered : recovered n = n % 26 - 1 + 1 := by rw [recovered]; omega
    rw [decodedFrom_decimal (by omega), hout, hrecovered, List.replicate_succ, List.cons_append]

theorem decodedFrom_encoded {rs : List (CChar × ℕ)}
    (hrs : ∀ r ∈ rs, isDigit r.1 = false ∧ 0 < r.2) :
    decodedFrom true count lastChar parsing (encoded rs)
      = List.replicate (count - 1) lastChar ++ expand (rs.map (Prod.map id recovered)) := by
  induction rs generalizing count lastChar parsing with
  | nil => rw [encoded_nil, decodedFrom, List.map_nil, expand_nil, List.append_nil]
  | cons r rs ih =>
    rw [List.forall_mem_cons] at hrs
    obtain ⟨ds, hds, hrun⟩ := decodedFrom_piece (c := r.1) (n := r.2) hrs.1.2 fun _ _ ↦ ih hrs.2
    rw [encoded_cons, hds, List.cons_append, decodedFrom_cons hrs.1.1, hrun]
    rfl

/-- **Lossy decoding.** Each run comes back, with its length as the decoder recovers it. -/
theorem decoded_encoded {rs : List (CChar × ℕ)} (hrs : ∀ r ∈ rs, isDigit r.1 = false ∧ 0 < r.2) :
    decoded (encoded rs) = expand (rs.map (Prod.map id recovered)) := by
  cases rs with
  | nil => rfl
  | cons r rs =>
    rw [List.forall_mem_cons] at hrs
    obtain ⟨ds, hds, hrun⟩ := decodedFrom_piece (c := r.1) (n := r.2) hrs.1.2 fun _ _ ↦
      decodedFrom_encoded hrs.2
    rw [encoded_cons, hds, List.cons_append, decoded_cons hrs.1.1, hrun]
    rfl

end Encoded

/-! ## The round trip -/

section RoundTrip

variable {text : List CChar}

/-- What comes back of a text. -/
def recoveredText (text : List CChar) : List CChar :=
  expand ((runs text).map (Prod.map id recovered))

theorem recoveredText_eq_iff : recoveredText text = text ↔ ∀ r ∈ runs text, r.2 < 26 := by
  have hexpand : expand ((runs text).map (Prod.map id recovered)) = expand (runs text) ↔ _ :=
    expand_map_eq_iff fun r hr ↦ recovered_le (pos_of_mem_runs hr)
  rw [expand_runs] at hexpand
  rw [recoveredText, hexpand]
  exact forall₂_congr fun r hr ↦ recovered_eq_iff (pos_of_mem_runs hr)

theorem length_recoveredText_le (text : List CChar) :
    (recoveredText text).length ≤ text.length := by
  conv_rhs => rw [← expand_runs text]
  exact length_expand_map_le fun r hr ↦ recovered_le (pos_of_mem_runs hr)

theorem recoveredText_eq_of_length (h : (recoveredText text).length = text.length) :
    recoveredText text = text := by
  have hle : ∀ r ∈ runs text, recovered r.2 ≤ r.2 := fun r hr ↦ recovered_le (pos_of_mem_runs hr)
  conv_rhs at h => rw [← expand_runs text]
  conv_rhs => rw [← expand_runs text]
  exact (expand_map_eq_iff hle).mpr ((length_expand_map_eq_iff hle).mp h)

variable (htext : ∀ c ∈ text, isDigit c = false)
include htext

theorem decoded_encoded_runs : decoded (encoded (runs text)) = recoveredText text :=
  decoded_encoded fun _ hr ↦ ⟨htext _ (fst_mem_of_mem_runs hr), pos_of_mem_runs hr⟩

/-- **The round trip of the codec.** Decompressing what `compress` made of a text without digits
gives the text again, with its maximal runs shortened to lengths between 1 and 25. It is the same
text exactly when all of them are shorter than 26. -/
theorem decompress_compress (hlt : text.length < 2 ^ 32) {dst back : List CChar}
    (hdst : (encoded (runs text)).length ≤ dst.length)
    (hback : (recoveredText text).length ≤ back.length) :
    (∃ size dst', compress Arrays.apart (UInt32.ofNat text.length) (text, dst)
        = .ok (size, (text, dst')) ∧
      decompress Arrays.apart size (dst', back)
        = .ok ((), (dst', recoveredText text ++ back.drop (recoveredText text).length))) ∧
      (recoveredText text = text ↔ ∀ r ∈ runs text, r.2 < 26) := by
  refine ⟨⟨_, _, compress_eq (A := Arrays.apart) (fun _ _ ↦ rfl) hlt hdst, ?_⟩,
    recoveredText_eq_iff⟩
  have hsize := (length_encoded_runs_le text).trans_lt hlt
  have hsrc : ∀ k < (encoded (runs text)).length,
      (written Arrays.apart (text, dst) 0 (encoded (runs text))).2[k]?
        = (encoded (runs text))[k]? := by
    intro k hk
    rw [written_apart, List.getElem?_append_left hk]
  have hdecoded := decoded_encoded_runs htext
  refine (decompress_eq (s := (_, back)) hsrc hsize ?_ ?_).trans ?_
  · rw [hdecoded]
    exact (length_recoveredText_le text).trans_lt hlt
  · rwa [hdecoded]
  · rw [hdecoded, written_apart]
    rfl

end RoundTrip

theorem decompress_compress_sample :
    (∃ size dst', compress Arrays.apart (UInt32.ofNat 3) ([97, 97, 0], [1, 1, 1])
        = .ok (size, ([97, 97, 0], dst')) ∧
      decompress Arrays.apart size (dst', [1, 1, 1, 1]) = .ok ((), (dst', [97, 97, 0, 1]))) ∧
      (recoveredText [97, 97, 0] = [97, 97, 0] ↔ ∀ r ∈ runs [(97 : CChar), 97, 0], r.2 < 26) :=
  @decompress_compress [97, 97, 0] (by decide +kernel) (by decide) _ _ (by decide) (by decide)

end Codec

end MinixClipboard
