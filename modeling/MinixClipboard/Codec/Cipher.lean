import MinixClipboard.Codec.Key

/-!
# The cipher

For each byte of the buffer `cipher` takes one value of the key, from the first one again after the
last (`cipher_eq`). For letters this is a cyclic shift in the alphabet they belong to: forwards by
the value when it enciphers, and backwards when it deciphers (`enciphered`, `deciphered`). These are
inverse to each other, and so is what the program does.

`letter base p` is the form in which all this is computed: the letter at position `p` of the
alphabet that begins at `base`. Addition then takes place in `p`, and nothing overflows.
-/

namespace MinixClipboard

namespace Codec

open Fallible

/-! ## Any bytes -/

/-- What `cipher` makes of a buffer, with these values of the key. -/
def ciphered (mode : UInt32) (values buffer : List CChar) : List CChar :=
  buffer.mapIdx fun i c ↦ cipherChar mode (values.getD (i % values.length) 0) c

@[simp] theorem length_ciphered (mode : UInt32) (values buffer : List CChar) :
    (ciphered mode values buffer).length = buffer.length := List.length_mapIdx

section Bytes

variable {mode : UInt32} {values normKey l rest s : List CChar} {i : ℕ}

theorem cipherFrom_eq (hvalues : values ≠ []) (hlen : values.length < 2 ^ 32)
    (hkey : ∀ k < values.length, normKey[k]? = values[k]?)
    (hsrc : ∀ k < l.length, s[i + k]? = l[k]?) (hlt : i + l.length < 2 ^ 32)
    (hroom : i + l.length ≤ s.length) :
    cipherFrom mode normKey (UInt32.ofNat values.length) l.length (UInt32.ofNat i)
        (UInt32.ofNat (i % values.length)) s
      = .ok ((), written Arrays.inPlace s i (l.mapIdx fun j c ↦
        cipherChar mode (values.getD ((i + j) % values.length) 0) c)) := by
  have hm : 0 < values.length := List.length_pos_iff.mpr hvalues
  induction l generalizing s i with
  | nil =>
    rw [List.mapIdx_nil, written_nil]
    rfl
  | cons c cs ih =>
    rw [List.length_cons] at hsrc hlt hroom ⊢
    obtain ⟨hread, hbehind⟩ := getElem?_of_cons hsrc
    have hk := Nat.mod_lt i hm
    have hvalue : normKey[(UInt32.ofNat (i % values.length)).toNat]?
        = some (values.getD (i % values.length) 0) := by
      rw [toNat_ofNat (hk.trans hlen), hkey _ hk, List.getD_eq_getElem _ _ hk,
        List.getElem?_eq_getElem hk]
    have hne : (UInt32.ofNat values.length == 0) = false := by
      rw [beq_eq_false_iff_ne, ne_eq, ← UInt32.toNat_inj, toNat_ofNat hlen]
      exact Nat.ne_of_gt hm
    have hnext : (UInt32.ofNat (i % values.length) + 1) % UInt32.ofNat values.length
        = UInt32.ofNat ((i + 1) % values.length) := by
      rw [ofNat_add_one, ← UInt32.toNat_inj, UInt32.toNat_mod, toNat_ofNat hlen,
        toNat_ofNat (by omega), toNat_ofNat ((Nat.mod_lt _ hm).trans hlen), Nat.mod_add_mod]
    rw [cipherFrom, bind_ok (peek_ofNat (A := Arrays.inPlace) (by omega) hread), hvalue,
      List.mapIdx_cons, Nat.add_zero]
    dsimp only
    generalize cipherChar mode (values.getD (i % values.length) 0) c = d
    have hroom' : i + [d].length ≤ (Arrays.inPlace.dst s).length := by
      change i + 1 ≤ s.length
      omega
    have hsame : (written Arrays.inPlace s i [d]).length = s.length := length_dst_written hroom'
    have hrest : ∀ k < cs.length, (written Arrays.inPlace s i [d])[i + 1 + k]? = cs[k]? := by
      intro k hk'
      exact (src_written hroom' (Nat.le_add_right (i + 1) k)).trans (hbehind k hk')
    refine (bind_ok (pushChar_ofNat (by omega) hroom' _) _).trans ?_
    rw [hne, if_neg Bool.false_ne_true, hnext, ofNat_add_one]
    refine (ih hrest (by omega) (by omega)).trans ?_
    simp only [Nat.add_assoc, Nat.add_comm 1]
    exact congrArg (fun s' ↦ Except.ok ((), s')) (written_written hroom')

/-- The loop from the first byte on, with an array that begins with these values. -/
theorem cipherFrom_zero (hvalues : values ≠ []) (hlen : values.length < 2 ^ 32)
    (hkey : ∀ k < values.length, normKey[k]? = values[k]?) (hlt : l.length < 2 ^ 32)
    (rest : List CChar) :
    cipherFrom mode normKey (UInt32.ofNat values.length) l.length 0 0 (l ++ rest)
      = .ok ((), ciphered mode values l ++ rest) := by
  have hloop := @cipherFrom_eq mode values normKey l (l ++ rest) 0 hvalues hlen hkey
    (fun k hk ↦ by rw [Nat.zero_add, List.getElem?_append_left hk]) (by omega)
    (by rw [List.length_append]; omega)
  have hresult : written Arrays.inPlace (l ++ rest) 0 (ciphered mode values l)
      = ciphered mode values l ++ rest := by
    rw [written_inPlace, length_ciphered, List.drop_left]
  simp only [Nat.zero_add, Nat.zero_mod] at hloop
  exact hloop.trans (congrArg (fun s' ↦ Except.ok ((), s')) hresult)

theorem fmemcpy_key {key : List CChar} (hsize : key.length ≤ maxSize) (junk : Local) :
    fmemcpy junk.val key (UInt32.ofNat key.length) = .ok (key ++ junk.val.drop key.length) := by
  rw [fmemcpy, toNat_ofNat (hsize.trans_lt (by decide)),
    if_pos ⟨Nat.le_refl _, junk.property.symm ▸ hsize⟩, List.take_length]
  rfl

theorem getElem?_written_values {s : List CChar} {k : ℕ} (hk : k < values.length) :
    (written Arrays.inPlace s 0 values)[k]? = values[k]? := by
  rw [written_inPlace, List.getElem?_append_left hk]

/-- **The cipher**, for a key of up to `MAX_SIZE` bytes. -/
theorem cipher_eq {key : List CChar} (hkey : key ≠ []) (hsize : key.length ≤ maxSize)
    (hlt : l.length < 2 ^ 32) (junk : Local) (rest : List CChar) (mode : UInt32) :
    cipher junk (UInt32.ofNat l.length) key (UInt32.ofNat key.length) mode (l ++ rest)
      = .ok (0, ciphered mode (keyValues key) l ++ rest) := by
  have hkeyLen : key.length < 2 ^ 32 := hsize.trans_lt (by decide)
  have hnormal := @normalizeKey_eq key (junk.val.drop key.length) hkeyLen
  rw [cipher, toNat_ofNat hkeyLen, if_neg (Nat.not_lt.mpr hsize), bind_apply, lift_apply,
    fmemcpy_key hsize]
  dsimp only
  rw [bind_apply, lift_apply, hnormal]
  dsimp only
  rw [toNat_ofNat hlt, bind_ok (cipherFrom_zero (keyValues_ne_nil hkey)
    ((length_keyValues_le key).trans_lt hkeyLen) (fun _ ↦ getElem?_written_values) hlt rest)]
  rfl

theorem cipher_of_lt {key : List CChar} (hsize : maxSize < key.length) (hlt : key.length < 2 ^ 32)
    (junk : Local) (bufferLen : UInt32) (mode : UInt32) (buffer : List CChar) :
    cipher junk bufferLen key (UInt32.ofNat key.length) mode buffer = .ok (-1, buffer) := by
  rw [cipher, toNat_ofNat hlt, if_pos hsize]
  rfl

theorem fmemcpy_take (dst src : List CChar) (len : UInt32) :
    fmemcpy dst (src.take len.toNat) len = fmemcpy dst src len := by
  simp only [fmemcpy, List.length_take, Nat.le_min, Nat.le_refl, true_and, List.take_take,
    Nat.min_self]

theorem cipher_take (junk : Local) (bufferLen : UInt32) (key : List CChar) (keyLen mode : UInt32) :
    cipher junk bufferLen (key.take keyLen.toNat) keyLen mode
      = cipher junk bufferLen key keyLen mode := by
  rw [cipher, fmemcpy_take]
  rfl

/-- What `cipher` returns and what it leaves does not depend on what its array holds at first. -/
theorem exists_cipher {key buffer : List CChar} {len keyLen : UInt32} (hkey : keyLen ≠ 0)
    (hkeyLen : key.length = keyLen.toNat) (hlen : len.toNat ≤ buffer.length) (mode : UInt32) :
    ∃ r buffer', buffer'.length = buffer.length ∧
      ∀ junk, cipher junk len key keyLen mode buffer = .ok (r, buffer') := by
  have hword : UInt32.ofNat key.length = keyLen := by rw [hkeyLen, UInt32.ofNat_toNat]
  -- a key longer than the local array is refused before anything is read
  rcases Nat.lt_or_ge maxSize key.length with hlong | hle
  · refine ⟨-1, buffer, rfl, fun junk ↦ ?_⟩
    rw [← hword]
    exact cipher_of_lt hlong (hkeyLen ▸ UInt32.toNat_lt _) junk len mode buffer
  · have hne : key ≠ [] := fun hnil ↦ hkey (by rw [← hword, hnil]; rfl)
    have htake : (buffer.take len.toNat).length = len.toNat := List.length_take_of_le hlen
    have hcipher := fun junk ↦ cipher_eq (l := buffer.take len.toNat) hne hle
      (htake.trans_lt (UInt32.toNat_lt _)) junk (buffer.drop len.toNat) mode
    rw [hword, htake, UInt32.ofNat_toNat, List.take_append_drop] at hcipher
    refine ⟨_, _, ?_, hcipher⟩
    rw [List.length_append, length_ciphered, ← List.length_append, List.take_append_drop]

end Bytes

/-! ## Letters -/

def isLetter (c : CChar) : Bool := isLower c || isUpper c

/-- The letter at a position of the alphabet that begins with the byte `base`. -/
def letter (base p : ℕ) : CChar := Int8.ofNat (base + p)

/-- The position of a letter in its alphabet. -/
def position (c : CChar) : ℕ := (c - charBase c).toNatClampNeg

/-- The letter of the same alphabet that is `v` positions further on, cyclically. -/
def shift (v : ℤ) (c : CChar) : CChar :=
  Int8.ofNat ((position c + v) % 26).toNat + charBase c

section Letters

variable {base p : ℕ} {c d : CChar} {v w : ℤ}

theorem exists_letter (hc : isLetter c = true) :
    ∃ base p, (base = 65 ∨ base = 97) ∧ p < 26 ∧ c = letter base p := by
  rw [isLetter, Bool.or_eq_true, isLower, isUpper, Bool.and_eq_true, Bool.and_eq_true,
    decide_eq_true_iff, decide_eq_true_iff, decide_eq_true_iff, decide_eq_true_iff] at hc
  have hnat : ∀ base : ℕ, base < 128 → Int8.ofNat base ≤ c → c ≤ Int8.ofNat (base + 25) →
      base + 25 < 128 → ∃ p < 26, c = letter base p := by
    intro base hbase hlo hhi hlt
    rw [Int8.le_iff_toInt_le, Int8.toInt_ofNat_of_lt (by omega)] at hlo hhi
    have hclamp : c.toNatClampNeg = c.toInt.toNat := rfl
    refine ⟨c.toNatClampNeg - base, by omega, ?_⟩
    rw [letter, Nat.add_sub_cancel' (by omega), Int8.ofNat_toNatClampNeg]
    rw [Int8.le_iff_toInt_le, Int8.toInt_zero]
    omega
  rcases hc with ⟨hlo, hhi⟩ | ⟨hlo, hhi⟩
  · obtain ⟨p, hp, hcp⟩ := hnat 97 (by decide) hlo hhi (by decide)
    exact ⟨97, p, Or.inr rfl, hp, hcp⟩
  · obtain ⟨p, hp, hcp⟩ := hnat 65 (by decide) hlo hhi (by decide)
    exact ⟨65, p, Or.inl rfl, hp, hcp⟩

variable (hbase : base = 65 ∨ base = 97) (hp : p < 26)
include hbase hp

theorem charBase_letter : charBase (letter base p) = Int8.ofNat base := by
  rcases hbase with rfl | rfl
  · revert hp; revert p; decide
  · revert hp; revert p; decide

theorem isDigit_letter : isDigit (letter base p) = false := by
  rcases hbase with rfl | rfl
  · revert hp; revert p; decide
  · revert hp; revert p; decide

theorem letterValue_letter : letterValue (letter base p) = Int8.ofNat p := by
  rcases hbase with rfl | rfl
  · revert hp; revert p; decide
  · revert hp; revert p; decide

theorem letter_sub_charBase : letter base p - charBase (letter base p) = Int8.ofNat p := by
  rw [charBase_letter hbase hp, letter, Nat.add_comm, Int8.ofNat_add, Int8.add_sub_cancel]

theorem position_letter : position (letter base p) = p := by
  rw [position, letter_sub_charBase hbase hp, Int8.toNatClampNeg_ofNat_of_lt (by omega)]

theorem shift_letter (v : ℤ) : shift v (letter base p) = letter base ((p + v) % 26).toNat := by
  rw [shift, position_letter hbase hp, charBase_letter hbase hp, letter, Nat.add_comm,
    Int8.ofNat_add]

/-- What the program makes of a letter: it is shifted forwards, or backwards to decipher. -/
theorem cipherChar_letter {v : ℕ} (hv : v < 26) (mode : UInt32) :
    cipherChar mode (Int8.ofNat v) (letter base p)
      = shift (if mode = modeDecipher then -(v : ℤ) else v) (letter base p) := by
  have hadd : ∀ w, w ≤ 26 →
      (Int8.ofNat p + Int8.ofNat w) % 26 + Int8.ofNat base = letter base ((p + w) % 26) := by
    intro w hw
    rw [← Int8.ofNat_add, letter, Nat.add_comm base, Int8.ofNat_add ((p + w) % 26)]
    exact congrArg (· + Int8.ofNat base) (Int8.ofNat_mod (by omega) (by decide)).symm
  rw [cipherChar, letter_sub_charBase hbase hp, charBase_letter hbase hp, shift_letter hbase hp]
  by_cases hmode : mode = modeDecipher
  · rw [if_pos (beq_iff_eq.mpr hmode), if_pos hmode]
    -- the program adds `26 - v` where the specification subtracts `v`
    have hsub : (26 : CChar) - Int8.ofNat v = Int8.ofNat (26 - v) :=
      (Int8.ofNat_sub 26 v (by omega)).symm
    rw [hsub, hadd _ (by omega)]
    congr 1
    omega
  · rw [if_neg (by simpa using hmode), if_neg hmode, hadd _ (by omega)]
    congr 1

theorem shift_shift (v w : ℤ) : shift v (shift w (letter base p)) =
    shift (w + v) (letter base p) := by
  rw [shift_letter hbase hp, shift_letter hbase (by omega), shift_letter hbase hp]
  congr 1
  omega

theorem shift_zero : shift 0 (letter base p) = letter base p := by
  rw [shift_letter hbase hp]
  congr 1
  omega

end Letters

/-- The letter `d` is the one `v` positions behind `c`, cyclically, in the same case. -/
structure Shifted (v : ℤ) (c d : CChar) : Prop where
  isLower : isLower d = isLower c
  isUpper : isUpper d = isUpper c
  position : (position d : ℤ) = (position c + v) % 26

theorem shifted_shift {c : CChar} (hc : isLetter c = true) (v : ℤ) : Shifted v c (shift v c) := by
  obtain ⟨base, p, hbase, hp, rfl⟩ := exists_letter hc
  have hq : ((p + v) % 26).toNat < 26 := by omega
  have hlower : ∀ q < 26, isLower (letter base q) = decide (base = 97) := by
    rcases hbase with rfl | rfl <;> decide
  have hupper : ∀ q < 26, isUpper (letter base q) = decide (base = 65) := by
    rcases hbase with rfl | rfl <;> decide
  rw [shift_letter hbase hp]
  refine ⟨by rw [hlower _ hq, hlower _ hp], by rw [hupper _ hq, hupper _ hp], ?_⟩
  rw [position_letter hbase hq, position_letter hbase hp]
  omega

/-! ## Texts -/

/-- How far a token of a key shifts. -/
def tokenShift : List CChar → ℕ
  | [] => 0
  | c :: cs => if isDigit c then number 0 (c :: cs) % 26 else position c

/-- How far the tokens of a key shift. -/
def shifts (key : List CChar) : List ℕ := (tokens key).map tokenShift

/-- How far a key shifts the byte at position `i`. -/
def keyShift (key : List CChar) (i : ℕ) : ℤ := (shifts key).getD (i % (shifts key).length) 0

/-- A text with all its letters shifted by a key. -/
def enciphered (key text : List CChar) : List CChar :=
  text.mapIdx fun i c ↦ shift (keyShift key i) c

/-- A text with all its letters shifted back by a key. -/
def deciphered (key text : List CChar) : List CChar :=
  text.mapIdx fun i c ↦ shift (-keyShift key i) c

@[simp] theorem length_enciphered (key text : List CChar) :
    (enciphered key text).length = text.length := List.length_mapIdx

@[simp] theorem length_deciphered (key text : List CChar) :
    (deciphered key text).length = text.length := List.length_mapIdx

section Texts

variable {key text : List CChar} (hkey : ∀ c ∈ key, isDigit c = true ∨ isLetter c = true)
  (htext : ∀ c ∈ text, isLetter c = true)

include hkey in
theorem tokenShift_lt {t : List CChar} (ht : t ∈ tokens key) :
    tokenShift t < 26 ∧ tokenValue t = Int8.ofNat (tokenShift t) := by
  obtain ⟨c, cs, rfl⟩ := List.exists_cons_of_ne_nil (ne_nil_of_mem_tokens ht)
  rw [tokenShift, tokenValue]
  by_cases hc : isDigit c = true
  · rw [if_pos hc, if_pos hc]
    exact ⟨Nat.mod_lt _ (by decide), rfl⟩
  · rw [if_neg hc, if_neg hc]
    have hletter := (hkey c (mem_of_mem_tokens ht List.mem_cons_self)).resolve_left hc
    obtain ⟨base, p, hbase, hp, rfl⟩ := exists_letter hletter
    rw [position_letter hbase hp, letterValue_letter hbase hp]
    exact ⟨hp, rfl⟩

include hkey in
theorem keyValues_eq : keyValues key = (shifts key).map Int8.ofNat := by
  rw [keyValues, shifts, List.map_map]
  exact List.map_congr_left fun t ht ↦ (tokenShift_lt hkey ht).2

include hkey in
theorem getD_shifts_lt (j : ℕ) : (shifts key).getD j 0 < 26 := by
  rcases Nat.lt_or_ge j (shifts key).length with hj | hj
  · rw [List.getD_eq_getElem _ _ hj]
    obtain ⟨t, ht, htj⟩ := List.mem_map.mp (List.getElem_mem hj)
    rw [← htj]
    exact (tokenShift_lt hkey ht).1
  · rw [List.getD_eq_default _ _ hj]
    decide

include hkey htext in
/-- What the program makes of a text. -/
theorem ciphered_eq (mode : UInt32) : ciphered mode (keyValues key) text
    = if mode = modeDecipher then deciphered key text else enciphered key text := by
  -- byte by byte; a shift back is a shift by the negated value
  have hletters : ciphered mode (keyValues key) text
      = text.mapIdx fun i c ↦
        shift (if mode = modeDecipher then -keyShift key i else keyShift key i) c := by
    refine List.ext_getElem (by simp) fun i hi hi' ↦ ?_
    rw [length_ciphered] at hi
    obtain ⟨base, p, hbase, hp, hc⟩ := exists_letter (htext _ (List.getElem_mem hi))
    simp only [ciphered, List.getElem_mapIdx, hc]
    have hzero : (0 : CChar) = Int8.ofNat 0 := rfl
    rw [keyValues_eq hkey, List.length_map, hzero, List.getD_map,
      cipherChar_letter hbase hp (getD_shifts_lt hkey _)]
    rfl
  rw [hletters]
  split
  · rfl
  · rfl

include htext in
theorem deciphered_enciphered : deciphered key (enciphered key text) = text := by
  refine List.ext_getElem (by simp) fun i hi hi' ↦ ?_
  obtain ⟨base, p, hbase, hp, hc⟩ := exists_letter (htext _ (List.getElem_mem hi'))
  simp only [deciphered, enciphered, List.getElem_mapIdx, hc]
  rw [shift_shift hbase hp, Int.add_right_neg, shift_zero hbase hp]

include htext in
theorem enciphered_deciphered : enciphered key (deciphered key text) = text := by
  refine List.ext_getElem (by simp) fun i hi hi' ↦ ?_
  obtain ⟨base, p, hbase, hp, hc⟩ := exists_letter (htext _ (List.getElem_mem hi'))
  simp only [deciphered, enciphered, List.getElem_mapIdx, hc]
  rw [shift_shift hbase hp, Int.add_left_neg, shift_zero hbase hp]

include htext in
theorem isLetter_of_mem_mapIdx {v : ℕ → ℤ} {c : CChar}
    (hc : c ∈ text.mapIdx fun i c ↦ shift (v i) c) : isLetter c = true := by
  obtain ⟨i, hi, rfl⟩ := List.mem_mapIdx.mp hc
  have hletter := htext _ (List.getElem_mem hi)
  have hshift := shifted_shift hletter (v i)
  rw [isLetter, hshift.isLower, hshift.isUpper]
  exact hletter

include htext in
theorem shifted_of_mapIdx {v : ℕ → ℤ} {i : ℕ} {c : CChar} (hc : text[i]? = some c) :
    ∃ d, (text.mapIdx fun i c ↦ shift (v i) c)[i]? = some d ∧ Shifted (v i) c d := by
  refine ⟨shift (v i) c, ?_, shifted_shift (htext c (List.mem_of_getElem? hc)) _⟩
  rw [List.getElem?_mapIdx, hc, Option.map_some]

include hkey htext in
/-- **An invertible shift.** With a key of letters and digits, `cipher` shifts every letter of a
text by the values of the tokens of the key, one after the other and again from the first, and each
of its modes undoes the other. -/
theorem cipher_shifts (hne : key ≠ []) (hsize : key.length ≤ maxSize) (hlt : text.length < 2 ^ 32)
    (junk : Local) :
    cipher junk (UInt32.ofNat text.length) key (UInt32.ofNat key.length) modeCipher text
        = .ok (0, enciphered key text) ∧
      cipher junk (UInt32.ofNat text.length) key (UInt32.ofNat key.length) modeDecipher text
        = .ok (0, deciphered key text) ∧
      (∀ i c, text[i]? = some c →
        (∃ d, (enciphered key text)[i]? = some d ∧ Shifted (keyShift key i) c d) ∧
        ∃ d, (deciphered key text)[i]? = some d ∧ Shifted (-keyShift key i) c d) ∧
      (∀ junk', cipher junk' (UInt32.ofNat text.length) key (UInt32.ofNat key.length) modeDecipher
        (enciphered key text) = .ok (0, text)) ∧
      ∀ junk', cipher junk' (UInt32.ofNat text.length) key (UInt32.ofNat key.length) modeCipher
        (deciphered key text) = .ok (0, text) := by
  -- each mode on any text of letters as long as this one, so also on the results
  have hrun : ∀ (junk : Local) mode (l : List CChar), l.length = text.length →
      (∀ c ∈ l, isLetter c = true) →
      cipher junk (UInt32.ofNat text.length) key (UInt32.ofNat key.length) mode l
        = .ok (0, if mode = modeDecipher then deciphered key l else enciphered key l) := by
    intro junk mode l hlen hl
    have hcipher := cipher_eq hne hsize (hlen ▸ hlt) junk [] mode
    rwa [List.append_nil, List.append_nil, hlen, ciphered_eq hkey hl] at hcipher
  have hdecipher : modeCipher ≠ modeDecipher := by decide
  refine ⟨?_, ?_, fun i c hc ↦ ⟨shifted_of_mapIdx htext hc, shifted_of_mapIdx htext hc⟩,
    fun junk' ↦ ?_, fun junk' ↦ ?_⟩
  · rw [hrun junk _ _ rfl htext, if_neg hdecipher]
  · rw [hrun junk _ _ rfl htext, if_pos rfl]
  · rw [hrun junk' _ (enciphered key text) (length_enciphered ..) fun c ↦
      isLetter_of_mem_mapIdx htext, if_pos rfl, deciphered_enciphered htext]
  · rw [hrun junk' _ (deciphered key text) (length_deciphered ..) fun c ↦
      isLetter_of_mem_mapIdx htext, if_neg hdecipher, enciphered_deciphered htext]

end Texts

def zeroLocal : Local := ⟨List.replicate maxSize 0, List.length_replicate⟩

theorem cipher_shifts_sample :
    cipher zeroLocal (UInt32.ofNat 2) [99, 51] (UInt32.ofNat 2) modeCipher [97, 88]
        = .ok (0, [99, 65]) :=
  (@cipher_shifts [99, 51] [97, 88] (by decide +kernel) (by decide +kernel) (by decide) (by decide)
    (by decide) zeroLocal).1

end Codec

end MinixClipboard
