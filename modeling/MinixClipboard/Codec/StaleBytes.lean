import MinixClipboard.Codec.CipherSafety
import MinixClipboard.Codec.DecodedSize
import MinixClipboard.Codec.PasteSafely

/-!
# Bytes left over

A safe paste of bytes without an end goes on with what stands behind them. Here is what can be seen
of it in the caller's buffer (`opened`). A single letter shows in most cases: it is decoded to
itself, where there would be a zero byte without it, and no key deciphers it to one. So nothing may
be left of the buffer when the decoder is done with the bytes themselves. `Covers` is what is asked
of them, and `covers_iff` says that this is exactly enough.
-/

namespace MinixClipboard

namespace Codec

open Fallible

/-! ## Decoding up to a letter -/

section Decoded

variable {n : ℕ} {c d lastChar : CChar} {parsing : Bool} {cs b l : List CChar}

theorem decodedFrom_of_digits (lastChar : CChar) (hcs : ∀ d ∈ cs, isDigit d = true) (n : ℕ)
    (parsing : Bool) : ∃ m,
    decodedFrom false n lastChar parsing cs = List.replicate m lastChar := by
  induction cs generalizing n parsing with
  | nil => exact ⟨n - 1, rfl⟩
  | cons d cs ih =>
    rw [List.forall_mem_cons] at hcs
    rw [decodedFrom, if_pos hcs.1]
    exact ih hcs.2 _ _

theorem decodedFrom_of_digits_concat (hc : isDigit c = false) (lastChar : CChar)
    (hcs : ∀ d ∈ cs, isDigit d = true) (n : ℕ) (parsing : Bool) : ∃ m,
    decodedFrom false n lastChar parsing (cs ++ [c]) = c :: List.replicate m c := by
  induction cs generalizing n parsing with
  | nil =>
    rw [List.nil_append, decodedFrom, hc]
    exact ⟨n - 1, rfl⟩
  | cons d cs ih =>
    rw [List.forall_mem_cons] at hcs
    rw [List.cons_append, decodedFrom, if_pos hcs.1]
    exact ih hcs.2 _ _

/-- A byte that is no digit is written, behind what is the same whatever comes after it. -/
theorem exists_decodedFrom_append (hc : isDigit c = false) (l : List CChar) (started : Bool) (n : ℕ)
    (lastChar : CChar) (parsing : Bool) : ∃ W n' parsing', ∀ rest,
    decodedFrom started n lastChar parsing (l ++ c :: rest)
      = W ++ c :: decodedFrom true n' c parsing' rest := by
  induction l generalizing started n lastChar parsing with
  | nil =>
    cases started with
    | true => exact ⟨_, _, _, fun rest ↦ decodedFrom_cons hc⟩
    | false => exact ⟨[], n, parsing, fun rest ↦ by rw [List.nil_append, decodedFrom, hc]; rfl⟩
  | cons d l ih =>
    cases hd : isDigit d with
    | true =>
      obtain ⟨W, n', parsing', hW⟩ :=
        ih started (((if parsing then 10 * n else 0) + digit d) % 26) lastChar true
      exact ⟨W, n', parsing', fun rest ↦ by rw [List.cons_append, decodedFrom, if_pos hd, hW]⟩
    | false =>
      cases started with
      | true =>
        obtain ⟨W, n', parsing', hW⟩ := ih true 0 d false
        refine ⟨List.replicate (n - 1) lastChar ++ d :: W, n', parsing', fun rest ↦ ?_⟩
        rw [List.cons_append, decodedFrom_cons hd, hW, List.append_assoc, List.cons_append]
      | false =>
        obtain ⟨W, n', parsing', hW⟩ := ih true n d parsing
        refine ⟨d :: W, n', parsing', fun rest ↦ ?_⟩
        rw [List.cons_append, decodedFrom, hd, if_neg Bool.false_ne_true,
          if_neg Bool.false_ne_true, hW, List.cons_append]

/-- What is written of the digits that come next is written of whatever comes next, first. -/
theorem exists_decodedFrom_takeWhile (n : ℕ) (c : CChar) (parsing : Bool) (behind : List CChar) :
    ∃ m out, decodedFrom true n c parsing (behind.takeWhile isDigit) = List.replicate m c ∧
      decodedFrom true n c parsing behind = List.replicate m c ++ out ∧
      (behind.dropWhile isDigit = [] → out = []) := by
  induction behind generalizing n parsing with
  | nil => exact ⟨n - 1, [], rfl, (List.append_nil _).symm, fun _ ↦ rfl⟩
  | cons d behind ih =>
    cases hd : isDigit d with
    | true =>
      rw [List.takeWhile_cons_of_pos hd, List.dropWhile_cons_of_pos hd, decodedFrom, decodedFrom,
        if_pos hd, if_pos hd]
      exact ih _ _
    | false =>
      have hneg : ¬isDigit d = true := Bool.eq_false_iff.mp hd
      rw [List.takeWhile_cons_of_neg hneg, List.dropWhile_cons_of_neg hneg, decodedFrom_cons hd]
      exact ⟨n - 1, _, rfl, rfl, fun h ↦ absurd h (List.cons_ne_nil _ _)⟩

/-- **What comes behind.** A text that ends with a byte that is no digit, and digits behind it, is
decoded to the same bytes, and then to more or less of that one, whatever comes behind it; and then
to what comes behind the digits. -/
theorem exists_decoded_append {ds : List CChar} (hc : isDigit c = false)
    (hds : ∀ d ∈ ds, isDigit d = true) (l : List CChar) : ∃ W, ∀ behind, ∃ m out,
    decoded (l ++ c :: ds ++ behind.takeWhile isDigit) = W ++ List.replicate m c ∧
      decoded (l ++ c :: ds ++ behind) = W ++ List.replicate m c ++ out ∧
      (behind.dropWhile isDigit = [] → out = []) := by
  obtain ⟨W, n, parsing, hW⟩ := exists_decodedFrom_append hc l false 0 0 false
  refine ⟨W ++ [c], fun behind ↦ ?_⟩
  obtain ⟨m, out, htake, hall, hout⟩ :=
    exists_decodedFrom_takeWhile n c parsing (ds ++ behind)
  rw [List.takeWhile_append_of_pos hds] at htake
  rw [List.dropWhile_append_of_pos hds] at hout
  refine ⟨m, out, ?_, ?_, hout⟩
  · rw [List.append_assoc, List.cons_append, decoded, hW, htake, List.append_assoc]
    rfl
  · rw [List.append_assoc, List.cons_append, decoded, hW, hall, List.append_assoc,
      List.append_assoc]
    rfl

theorem decodedFrom_concat (hc : isDigit c = false) (cs : List CChar) (n : ℕ) (lastChar : CChar)
    (parsing : Bool) :
    decodedFrom true n lastChar parsing (cs ++ [c])
      = decodedFrom true n lastChar parsing cs ++ [c] := by
  induction cs generalizing n lastChar parsing with
  | nil =>
    rw [List.nil_append, decodedFrom_cons hc]
    rfl
  | cons d cs ih =>
    rw [List.cons_append]
    cases hd : isDigit d with
    | true => rw [decodedFrom, decodedFrom, if_pos hd, if_pos hd, ih]
    | false =>
      rw [decodedFrom_cons hd, decodedFrom_cons hd, ih, List.append_assoc, List.cons_append]

theorem ne_zero_of_mem_decodedFrom {started : Bool} (hcs : ∀ c ∈ cs, c ≠ 0)
    (hlast : started = true → lastChar ≠ 0) (hstarts : started = true ∨ ∃ c ∈ cs, isDigit c = false)
    (hd : d ∈ decodedFrom started n lastChar parsing cs) : d ≠ 0 := by
  induction cs generalizing started n lastChar parsing with
  | nil =>
    rw [(List.mem_replicate.mp hd).2]
    exact hlast (hstarts.resolve_right (by simp))
  | cons c cs ih =>
    rw [List.forall_mem_cons] at hcs
    cases hc : isDigit c with
    | true =>
      rw [decodedFrom, if_pos hc] at hd
      exact ih hcs.2 hlast (hstarts.imp_right (by simp [hc])) hd
    | false =>
      rw [decodedFrom, hc, if_neg Bool.false_ne_true] at hd
      cases started with
      | true =>
        rw [if_pos rfl, List.mem_append, List.mem_cons] at hd
        rcases hd with hd | rfl | hd
        · rw [(List.mem_replicate.mp hd).2]
          exact hlast rfl
        · exact hcs.1
        · exact ih hcs.2 (fun _ ↦ hcs.1) (Or.inl rfl) hd
      | false =>
        rw [if_neg Bool.false_ne_true, List.mem_cons] at hd
        rcases hd with rfl | hd
        · exact hcs.1
        · exact ih hcs.2 (fun _ ↦ hcs.1) (Or.inl rfl) hd

theorem digits_or_split (b : List CChar) : (∀ d ∈ b, isDigit d = true) ∨
    ∃ l c ds, b = l ++ c :: ds ∧ isDigit c = false ∧ ∀ d ∈ ds, isDigit d = true := by
  induction b using List.reverseRecOn with
  | nil => exact Or.inl (by simp)
  | append_singleton b c ih =>
    cases hc : isDigit c with
    | false => exact Or.inr ⟨b, c, [], rfl, hc, by simp⟩
    | true =>
      rcases ih with hb | ⟨l, e, ds, rfl, he, hds⟩
      · exact Or.inl (List.forall_mem_append.mpr ⟨hb, by simpa using hc⟩)
      · refine Or.inr ⟨l, e, ds ++ [c], by simp, he, ?_⟩
        exact List.forall_mem_append.mpr ⟨hds, by simpa using hc⟩

theorem decoded_concat (hletter : ∃ c ∈ b, isDigit c = false) (hd : isDigit d = false) :
    decoded (b ++ [d]) = decoded b ++ [d] := by
  rcases digits_or_split b with hdigits | ⟨l, c, ds, rfl, hc, -⟩
  · obtain ⟨c, hmem, hc⟩ := hletter
    simp [hdigits c hmem] at hc
  · obtain ⟨W, n, parsing, hW⟩ := exists_decodedFrom_append hc l false 0 0 false
    rw [List.append_assoc, List.cons_append, decoded, decoded, hW, hW, decodedFrom_concat hd,
      List.append_assoc, List.cons_append]

end Decoded

/-! ## What is shown -/

section Shown

variable {b : List CChar} {L : ℕ}

theorem shown_of_digits (hb : ∀ d ∈ b, isDigit d = true) (L : ℕ) :
    shown b L = List.replicate L 0 := by
  obtain ⟨m, hm⟩ := decodedFrom_of_digits 0 hb 0 false
  rw [← decoded] at hm
  rw [shown, hm, List.take_replicate, List.length_replicate, List.replicate_append_replicate]
  congr 1
  omega

/-- Where there is a byte that is no digit, the text ends where the decoder does. -/
theorem scan_shown (hb : ∀ c ∈ b, c ≠ 0) (hletter : ∃ c ∈ b, isDigit c = false) (L : ℕ) :
    scan (shown b L) L = (decoded b).take L := by
  have hne : ∀ c ∈ (decoded b).take L, c ≠ 0 := fun c hc ↦
    ne_zero_of_mem_decodedFrom hb (absurd · Bool.false_ne_true) (Or.inr hletter)
      (List.mem_of_mem_take hc)
  rw [shown, scan_append hne (List.length_take_le _ _), scan_replicate_zero, List.append_nil]

theorem scan_shown_eq_nil_iff (hb : ∀ c ∈ b, c ≠ 0) (hle : b.length ≤ L) :
    scan (shown b L) L = [] ↔ ∀ d ∈ b, isDigit d = true := by
  rcases digits_or_split b with hdigits | ⟨l, c, ds, rfl, hc, -⟩
  · refine iff_of_true ?_ hdigits
    rw [shown_of_digits hdigits, scan_replicate_zero]
  · have hmem : c ∈ l ++ c :: ds := by simp
    refine iff_of_false (fun hnil ↦ ?_) fun hdigits ↦ by simp [hdigits c hmem] at hc
    obtain ⟨W, n, parsing, hW⟩ := exists_decodedFrom_append hc l false 0 0 false
    rw [scan_shown hb ⟨c, hmem, hc⟩, List.take_eq_nil_iff, decoded, hW] at hnil
    simp at hnil hle
    omega

end Shown

/-! ## The cipher -/

section Cipher

variable {l key : List CChar} {keyLen : UInt32}

/-- What `cipher` makes of a byte at this position. With too long a key it is left alone. -/
def cipherAt (mode : UInt32) (key : List CChar) (j : ℕ) (c : CChar) : CChar :=
  if key.length ≤ maxSize then
    cipherChar mode ((keyValues key).getD (j % (keyValues key).length) 0) c
  else c

theorem exists_cipher_append (hkey : keyLen ≠ 0 ∨ l = []) (hkeyLen : key.length = keyLen.toNat)
    (hlt : l.length < 2 ^ 32) (junk : Local) (mode : UInt32) (rest : List CChar) :
    ∃ r, cipher junk (UInt32.ofNat l.length) key keyLen mode (l ++ rest)
      = .ok (r, l.mapIdx (cipherAt mode key) ++ rest) := by
  have hword : UInt32.ofNat key.length = keyLen := by rw [hkeyLen, UInt32.ofNat_toNat]
  rcases Nat.lt_or_ge maxSize key.length with hlong | hsize
  · have hid : cipherAt mode key = fun _ c ↦ c := by
      funext j c
      rw [cipherAt, if_neg (Nat.not_le.mpr hlong)]
    refine ⟨-1, ?_⟩
    have hsame : l.mapIdx (fun _ c ↦ c) = l := List.ext_getElem? fun j ↦ by simp
    rw [← hword, cipher_of_lt hlong (hkeyLen ▸ keyLen.toNat_lt), hid, hsame]
  by_cases hzero : keyLen = 0
  · -- nothing is read of an empty key when there is nothing to encipher
    obtain rfl := hkey.resolve_left (not_not_intro hzero)
    subst hzero
    exact ⟨0, rfl⟩
  · have hne : key ≠ [] := fun hnil ↦ hzero (by rw [← hword, hnil]; rfl)
    have hat : cipherAt mode key = fun j c ↦
        cipherChar mode ((keyValues key).getD (j % (keyValues key).length) 0) c := by
      funext j c
      rw [cipherAt, if_pos hsize]
    refine ⟨0, ?_⟩
    rw [← hword, cipher_eq hne hsize hlt, hat]
    rfl

/-- What is left over is small, so a small letter keeps it from becoming zero. -/
theorem mod_add_a_ne_zero (x : CChar) : x % 26 + 97 ≠ 0 := by
  intro h
  have hint := congrArg Int8.toInt h
  have h97 : (97 : Int8).toInt = 97 := by decide
  have h26 : (26 : Int8).toInt = 26 := by decide
  have h0 : (0 : Int8).toInt = 0 := by decide
  rw [Int8.toInt_add, Int8.toInt_mod, h97, h26, h0] at hint
  have hlo : -26 < x.toInt.tmod 26 := Int.lt_tmod_of_pos _ (by decide)
  have hhi : x.toInt.tmod 26 < 26 := Int.tmod_lt_of_pos _ (by decide)
  rw [Int.bmod_eq_of_le (by omega) (by omega)] at hint
  omega

theorem cipherAt_a_ne_zero (mode : UInt32) (key : List CChar) (j : ℕ) :
    cipherAt mode key j 97 ≠ 0 := by
  rw [cipherAt]
  split
  · exact mod_add_a_ne_zero _
  · decide

end Cipher

/-! ## What is left in the buffer -/

section Opened

variable {key E b behind : List CChar} {keyLen : UInt32} {L N : ℕ}

/-- What a safe paste of these bytes leaves in the first bytes of the caller's buffer. -/
def opened (key b : List CChar) (L : ℕ) : List CChar :=
  (scan (shown b L) L).mapIdx (cipherAt modeDecipher key)
    ++ (shown b L).drop (scan (shown b L) L).length

/-- A safe paste of these bytes returns: `N` bytes are enough for what they are decoded to, and
there is a key, or nothing to decipher. -/
def Opens (keyLen : UInt32) (b : List CChar) (L N : ℕ) : Prop :=
  decodedSize b ≤ N ∧ (keyLen ≠ 0 ∨ scan (shown b L) L = [])

@[simp] theorem length_opened (key b : List CChar) (L : ℕ) : (opened key b L).length = L := by
  have hle := length_scan_le (shown b L) L
  rw [opened, List.length_append, List.length_mapIdx, List.length_drop, length_shown]
  omega

theorem opened_of_digits (key : List CChar) (hb : ∀ d ∈ b, isDigit d = true) (L : ℕ) :
    opened key b L = List.replicate L 0 := by
  rw [opened, shown_of_digits hb, scan_replicate_zero]
  rfl

theorem opened_of_letter (key : List CChar) (hb : ∀ c ∈ b, c ≠ 0)
    (hletter : ∃ c ∈ b, isDigit c = false) (L : ℕ) :
    opened key b L = ((decoded b).take L).mapIdx (cipherAt modeDecipher key)
      ++ List.replicate (L - (decoded b).length) 0 := by
  rw [opened, scan_shown hb hletter, shown, List.drop_left]

theorem getElem?_opened {c : CChar} {j : ℕ} (key : List CChar) (hb : ∀ c ∈ b, c ≠ 0)
    (hletter : ∃ c ∈ b, isDigit c = false) (hj : j < L) (hc : (decoded b)[j]? = some c) :
    (opened key b L)[j]? = some (cipherAt modeDecipher key j c) := by
  have hlt := (List.getElem?_eq_some_iff.mp hc).1
  have hin : j < (((decoded b).take L).mapIdx (cipherAt modeDecipher key)).length := by
    rw [List.length_mapIdx, List.length_take]
    omega
  rw [opened_of_letter key hb hletter, List.getElem?_append_left hin, List.getElem?_mapIdx,
    List.getElem?_take_of_lt hj, hc]
  rfl

theorem getElem?_opened_of_le {j : ℕ} (key : List CChar) (hb : ∀ c ∈ b, c ≠ 0)
    (hletter : ∃ c ∈ b, isDigit c = false) (hj : j < L) (hle : decodedSize b ≤ j) :
    (opened key b L)[j]? = some 0 := by
  rw [← length_decoded] at hle
  have htake : (decoded b).take L = decoded b := List.take_of_length_le (hle.trans hj.le)
  rw [opened_of_letter key hb hletter, htake, List.getElem?_append_right (by simpa using hle),
    List.length_mapIdx, List.getElem?_replicate_of_lt (by omega)]

/-- Whatever is read behind these bytes, up to `L` in all, is not to be seen in `L` bytes of the
caller's buffer, and needs no more than `N`. As long as there could be a letter still to come, what
the bytes are decoded to fills the buffer. Where there are only digits more, it may be fewer of its
last byte, if that is deciphered to zero bytes. -/
def Covers (key E : List CChar) (L N : ℕ) : Prop :=
  ∃ l c ds, E = l ++ c :: ds ∧ isDigit c = false ∧ (∀ d ∈ ds, isDigit d = true) ∧
    ∀ behind, 0 ∉ behind → (E ++ behind).length ≤ L →
      decodedSize (E ++ behind) ≤ N ∧
      ((E ++ behind).length < L → L ≤ decodedSize (E ++ behind)) ∧
      ∀ j, decodedSize (E ++ behind) ≤ j → j < L → cipherAt modeDecipher key j c = 0

theorem forall_append_ne_zero (hE : 0 ∉ E) (hbehind : 0 ∉ behind) : ∀ c ∈ E ++ behind, c ≠ 0 := by
  rw [List.forall_mem_append]
  exact ⟨fun c hc h ↦ hE (h ▸ hc), fun c hc h ↦ hbehind (h ▸ hc)⟩

/-- **What covers** everything behind it leaves the same, whatever that is. -/
theorem Covers.opened_append (h : Covers key E L N) (hE : 0 ∉ E) (hlt : E.length < L)
    (hbehind : 0 ∉ behind) (hle : (E ++ behind).length ≤ L) :
    opened key (E ++ behind) L = opened key E L := by
  obtain ⟨l, c, ds, hsplit, hc, hds, hcovers⟩ := h
  obtain ⟨W, hW⟩ := exists_decoded_append hc hds l
  rw [← hsplit] at hW
  -- what is left is, at each position, what the last byte would leave if it went on for ever
  have hall : ∀ behind, 0 ∉ behind → (E ++ behind).length ≤ L → ∀ j < L,
      (opened key (E ++ behind) L)[j]? = some (cipherAt modeDecipher key j (W.getD j c)) := by
    intro behind hbehind hle j hj
    obtain ⟨m, out, htake, hdecoded, hout⟩ := hW behind
    have hne := forall_append_ne_zero hE hbehind
    have hletter : ∃ d ∈ E ++ behind, isDigit d = false := ⟨c, by simp [hsplit], hc⟩
    rcases Nat.lt_or_ge j (W ++ List.replicate m c).length with hin | hge
    · refine getElem?_opened key hne hletter hj ?_
      rw [hdecoded, List.getElem?_append_left hin]
      rcases Nat.lt_or_ge j W.length with hjW | hjW
      · rw [List.getElem?_append_left hjW, List.getElem?_eq_getElem hjW,
          List.getD_eq_getElem _ _ hjW]
      · rw [List.length_append, List.length_replicate] at hin
        rw [List.getElem?_append_right hjW, List.getElem?_replicate_of_lt (by omega),
          List.getD_eq_default _ _ hjW]
    · -- nothing but digits stands behind, or they alone would have filled the buffer
      have hdigits : behind.dropWhile isDigit = [] := by
        by_contra hrest
        have hshorter : (behind.takeWhile isDigit).length < behind.length := by
          conv_rhs => rw [← List.takeWhile_append_dropWhile (p := isDigit) (l := behind)]
          rw [List.length_append]
          exact Nat.lt_add_of_pos_right (List.length_pos_iff.mpr hrest)
        have hfull := (hcovers (behind.takeWhile isDigit)
          (fun h₀ ↦ hbehind ((List.takeWhile_prefix _).subset h₀))
          (by rw [List.length_append] at hle ⊢; omega)).2.1
          (by rw [List.length_append] at hle ⊢; omega)
        rw [← length_decoded, htake] at hfull
        omega
      rw [hout hdigits, List.append_nil] at hdecoded
      have hsize : decodedSize (E ++ behind) ≤ j := by rw [← length_decoded, hdecoded]; exact hge
      have hjW : W.length ≤ j := by rw [List.length_append] at hge; omega
      rw [getElem?_opened_of_le key hne hletter hj hsize, List.getD_eq_default _ _ hjW,
        (hcovers behind hbehind hle).2.2 j hsize hj]
  have hsame := hall [] (List.not_mem_nil) (by rw [List.append_nil]; exact hlt.le)
  rw [List.append_nil] at hsame
  refine List.ext_getElem? fun j ↦ ?_
  rcases Nat.lt_or_ge j L with hj | hj
  · rw [hall behind hbehind hle j hj, hsame j hj]
  · rw [List.getElem?_eq_none (by rwa [length_opened]),
      List.getElem?_eq_none (by rwa [length_opened])]

/-- Where nothing can be seen of what is read behind, a letter behind the bytes is not, and so they
cover it. -/
theorem covers_of_opened (hE : 0 ∉ E) (hlt : E.length < L)
    (h : ∀ behind, 0 ∉ behind → (E ++ behind).length ≤ L →
      Opens keyLen (E ++ behind) L N ∧ opened key (E ++ behind) L = opened key E L) :
    keyLen ≠ 0 ∧ Covers key E L N := by
  have hnil : ∀ c ∈ E, c ≠ 0 := fun c hc h₀ ↦ hE (h₀ ▸ hc)
  have ha : (0 : CChar) ∉ [97] := by decide
  have hle : (E ++ [97]).length ≤ L := by simpa using hlt
  obtain ⟨hopens, hsame⟩ := h [97] ha hle
  refine ⟨hopens.2.resolve_right fun hscan ↦ ?_, ?_⟩
  · have hdigits := (scan_shown_eq_nil_iff (forall_append_ne_zero hE ha) hle).mp hscan
    exact absurd (hdigits 97 (by simp)) (by decide)
  rcases digits_or_split E with hdigits | ⟨l, c, ds, hsplit, hc, hds⟩
  · -- digits alone leave zero bytes, and the letter would be the first byte there
    obtain ⟨m, hm⟩ := decodedFrom_of_digits_concat (c := 97) (by decide) 0 hdigits 0 false
    have hfirst : (decoded (E ++ [97]))[0]? = some 97 := by rw [decoded, hm]; rfl
    have hletter := getElem?_opened key (forall_append_ne_zero hE ha)
      ⟨97, by simp, by decide⟩ (Nat.zero_lt_of_lt hlt) hfirst
    rw [hsame, opened_of_digits key hdigits,
      List.getElem?_replicate_of_lt (Nat.zero_lt_of_lt hlt)] at hletter
    exact absurd (Option.some_inj.mp hletter).symm (cipherAt_a_ne_zero _ _ _)
  have hletter : ∀ behind, ∃ d ∈ E ++ behind, isDigit d = false := fun behind ↦
    ⟨c, by simp [hsplit], hc⟩
  have hfull : ∀ behind, 0 ∉ behind → (E ++ behind).length < L →
      L ≤ decodedSize (E ++ behind) := by
    intro behind hbehind hlt'
    by_contra hover
    rw [Nat.not_le] at hover
    have hmore : (0 : CChar) ∉ behind ++ [97] := by simpa using hbehind
    have hroom : (E ++ (behind ++ [97])).length ≤ L := by
      rw [← List.append_assoc, List.length_append]
      exact hlt'
    -- where there is a zero byte, the letter would be written
    have hzero := getElem?_opened_of_le key (forall_append_ne_zero hE hbehind)
      (hletter behind) hover (Nat.le_refl _)
    have hwritten : (decoded (E ++ (behind ++ [97])))[decodedSize (E ++ behind)]? = some 97 := by
      rw [← List.append_assoc, decoded_concat (hletter behind) (by decide), ← length_decoded,
        List.getElem?_concat_length]
    have hshows := getElem?_opened key (forall_append_ne_zero hE hmore)
      (hletter _) hover hwritten
    rw [(h _ hmore hroom).2, ← (h _ hbehind hlt'.le).2, hzero] at hshows
    exact absurd (Option.some_inj.mp hshows).symm (cipherAt_a_ne_zero _ _ _)
  obtain ⟨W, hW⟩ := exists_decoded_append hc hds l
  rw [← hsplit] at hW
  refine ⟨l, c, ds, hsplit, hc, hds, fun behind hbehind hle ↦
    ⟨(h behind hbehind hle).1.1, hfull behind hbehind, fun j hj hjL ↦ ?_⟩⟩
  -- what shows there without it is the last byte, deciphered
  have hzero := getElem?_opened_of_le key (forall_append_ne_zero hE hbehind)
    (hletter behind) hjL hj
  obtain ⟨m, out, -, hdecoded, hout⟩ := hW []
  rw [hout rfl, List.append_nil, List.append_nil] at hdecoded
  obtain ⟨m', out', -, hdecoded', -⟩ := hW behind
  have hjW : W.length ≤ j := by
    rw [← length_decoded, hdecoded', List.append_assoc, List.length_append] at hj
    omega
  have hin : j < (decoded E).length := by
    have hfullE := hfull [] List.not_mem_nil (by rwa [List.append_nil])
    rw [List.append_nil, ← length_decoded] at hfullE
    omega
  have hcj : (decoded E)[j]? = some c := by
    rw [hdecoded, List.length_append, List.length_replicate] at hin
    rw [hdecoded, List.getElem?_append_right hjW, List.getElem?_replicate_of_lt (by omega)]
  have hlast := getElem?_opened key hnil ⟨c, by simp [hsplit], hc⟩ hjL hcj
  rw [← (h behind hbehind hle).2, hzero] at hlast
  exact (Option.some_inj.mp hlast).symm

/-- **Nothing is seen** of what is read behind bytes without an end, and the paste returns, exactly
if there is a key and the bytes cover it. -/
theorem covers_iff (hE : 0 ∉ E) (hlt : E.length < L) :
    (∀ behind, 0 ∉ behind → (E ++ behind).length ≤ L →
      Opens keyLen (E ++ behind) L N ∧ opened key (E ++ behind) L = opened key E L) ↔
    keyLen ≠ 0 ∧ Covers key E L N := by
  refine ⟨covers_of_opened hE hlt, fun ⟨hkey, hcovers⟩ behind hbehind hle ↦
    ⟨⟨?_, Or.inl hkey⟩, hcovers.opened_append hE hlt hbehind hle⟩⟩
  obtain ⟨l, c, ds, -, -, -, h⟩ := hcovers
  exact (h behind hbehind hle).1

end Opened

/-! ## A paste -/

section Paste

variable {τ : Type} {s s' : τ} {tmp : Local} {id bufferLen keyLen len : UInt32}
  {buffer left key : List CChar}
  {pasteFromClipboard : UInt32 → List CChar → UInt32 →
    StateT τ (Except Fault) (UInt32 × List CChar × UInt32)}
  (hpaste : pasteFromClipboard id tmp.val bufferLen s = .ok ((0, left, len), s'))
  (hscan : bufferLen.toNat ≤ left.length ∨ 0 ∈ left) (hbuffer : bufferLen.toNat ≤ buffer.length)
  (hlt : 25 * bufferLen.toNat < 2 ^ 32)
include hpaste hscan hbuffer hlt

omit hpaste hscan hbuffer in
theorem length_decoded_scan_lt : (decoded (scan left bufferLen.toNat)).length < 2 ^ 32 :=
  ((length_decoded_le _).trans (Nat.mul_le_mul_left 25 (length_scan_le _ _))).trans_lt hlt

theorem exists_pasteSafely_of_opens (hkeyLen : key.length = keyLen.toNat)
    (h : Opens keyLen (scan left bufferLen.toNat) bufferLen.toNat buffer.length) (junk : Local) :
    ∃ out, pasteSafely pasteFromClipboard tmp junk id buffer bufferLen key keyLen s
        = .ok ((0, out), s') ∧
      out.take bufferLen.toNat = opened key (scan left bufferLen.toNat) bufferLen.toNat := by
  obtain ⟨hfits, hkey⟩ := h
  have hdone := pasteSafely_of_scan hpaste hscan hbuffer junk key keyLen
    (length_decoded_scan_lt hlt) (by rwa [length_decoded])
  have htake := take_unpacked (scan left bufferLen.toNat) buffer bufferLen.toNat
  have hprefix := scan_isPrefixOf (unpacked (scan left bufferLen.toNat) buffer bufferLen.toNat)
    bufferLen.toNat
  rw [scan_unpacked] at hprefix
  obtain ⟨rest, hrest⟩ := hprefix
  have hscanned := length_scan_le (shown (scan left bufferLen.toNat) bufferLen.toNat)
    bufferLen.toNat
  rw [opened]
  generalize scan (shown (scan left bufferLen.toNat) bufferLen.toNat) bufferLen.toNat = text at *
  rw [← hrest] at hdone htake
  obtain ⟨r, hcipher⟩ := exists_cipher_append hkey hkeyLen (hscanned.trans_lt bufferLen.toNat_lt)
    junk modeDecipher rest
  rw [hcipher] at hdone
  refine ⟨_, hdone, ?_⟩
  rw [← htake, List.take_append, List.take_append, List.length_mapIdx,
    List.take_of_length_le (by rwa [List.length_mapIdx]), List.take_of_length_le hscanned,
    List.drop_left]

theorem opens_of_pasteSafely {junk : Local} {y : UInt32 × List CChar} {u : τ}
    (h : pasteSafely pasteFromClipboard tmp junk id buffer bufferLen key keyLen s = .ok (y, u)) :
    Opens keyLen (scan left bufferLen.toNat) bufferLen.toNat buffer.length := by
  have hfits : (decoded (scan left bufferLen.toNat)).length ≤ buffer.length := by
    by_contra hover
    rw [Nat.not_le] at hover
    cases (pasteSafely_of_overrun hpaste hscan hbuffer
      (hover.trans (length_decoded_scan_lt hlt)) hover).symm.trans h
  refine ⟨by rwa [← length_decoded], ?_⟩
  rw [or_iff_not_imp_left, not_not]
  rintro rfl
  by_contra hne
  have hscanned := length_scan_le (shown (scan left bufferLen.toNat) bufferLen.toNat)
    bufferLen.toNat
  have hword := toNat_ofNat (hscanned.trans_lt bufferLen.toNat_lt)
  have hfault := cipher_of_zero junk key modeDecipher (hword.trans_le
    ((hscanned.trans hbuffer).trans_eq (length_unpacked hbuffer hfits).symm)) (fun h₀ ↦ by
      rw [h₀] at hword
      exact hne (List.length_eq_zero_iff.mp hword.symm))
  rw [pasteSafely_of_scan hpaste hscan hbuffer junk key 0 (length_decoded_scan_lt hlt) hfits,
    hfault] at h
  cases h

end Paste

end Codec

end MinixClipboard
