import MinixClipboard.Codec.Cipher

/-!
# What the cipher may touch

`cipher` keeps the values of its key in an array on its stack, and divides by their number. That it
stays within the array, reads only what `normalize_key` has put there and does not divide by zero
rests on the length of the key alone: the tokens of a key are at least one, and at most as many as
its bytes, unless it is empty (`cipherSafe_iff`). Nobody looks whether it is.
-/

namespace MinixClipboard

namespace Codec

open Fallible

/-- A call of `cipher` that returns `OK`, with what it leaves in `buffer` and in `norm_key`. An
access outside `norm_key` would be a fault, and so would a remainder by zero. -/
structure CipherRuns (junk : Local) (bufferLen : UInt32) (key : List CChar) (keyLen mode : UInt32)
    (buffer out norm norm' : List CChar) (normKeyLen : UInt32) : Prop where
  copied : fmemcpy junk.val key keyLen = .ok norm
  normalized : normalizeKey keyLen norm = .ok (normKeyLen, norm')
  /-- The first `norm_key_len` bytes are written by `normalize_key`, and no others: with an array of
  its own for the result, these are what it fills, whatever they held before. -/
  filled : ∀ res : Local, normalizeFrom Arrays.apart keyLen.toNat 0 0 0 false (norm, res.val)
    = .ok (normKeyLen, (norm, norm'.take normKeyLen.toNat ++ res.val.drop normKeyLen.toNat))
  /-- The loop does with these bytes alone. -/
  loop : cipherFrom mode (norm'.take normKeyLen.toNat) normKeyLen bufferLen.toNat 0 0 buffer
    = .ok ((), out)
  returned : cipher junk bufferLen key keyLen mode buffer = .ok (0, out)

/-- `cipher` refuses the key and leaves the buffer alone, or it returns `OK` without having gone
astray. -/
def CipherSafe (junk : Local) (bufferLen : UInt32) (key : List CChar) (keyLen mode : UInt32)
    (buffer : List CChar) : Prop :=
  cipher junk bufferLen key keyLen mode buffer = .ok (-1, buffer) ∨
    ∃ out norm norm' normKeyLen,
      CipherRuns junk bufferLen key keyLen mode buffer out norm norm' normKeyLen

/-! ## The key -/

section Key

variable {key rest res : List CChar}

/-- With an array of its own for the result, `normalize_key` fills as much of it as the key has
tokens. -/
theorem normalizeFrom_apart (hlt : key.length < 2 ^ 32) (hroom : key.length ≤ res.length) :
    normalizeFrom Arrays.apart key.length 0 0 0 false (key ++ rest, res)
      = .ok (UInt32.ofNat (keyValues key).length,
        (key ++ rest, keyValues key ++ res.drop (keyValues key).length)) := by
  have hloop := normalizeFrom_eq (A := Arrays.apart) (s := (key ++ rest, res)) (i := 0) (j := 0)
    (l := key) (Reading.start (Nat.zero_lt_succ 25))
    (fun k hk ↦ by rw [Nat.zero_add]; exact List.getElem?_append_left hk) (by omega)
    (Nat.le_refl 0)
    (by rw [List.nil_append, Nat.zero_add]; exact (length_keyValues_le key).trans hroom)
  rw [List.nil_append, Nat.zero_add, written_apart] at hloop
  exact hloop

theorem take_written_values (hlt : (keyValues key).length < 2 ^ 32) (s : List CChar) :
    (written Arrays.inPlace s 0 (keyValues key)).take
        (UInt32.ofNat (keyValues key).length).toNat = keyValues key := by
  rw [written_inPlace, toNat_ofNat hlt, List.take_left]

end Key

/-! ## The call -/

section Call

variable {junk : Local} {key buffer : List CChar} {bufferLen keyLen mode : UInt32}

theorem CipherRuns.of_take {out norm norm' : List CChar} {normKeyLen : UInt32}
    (h : CipherRuns junk bufferLen (key.take keyLen.toNat) keyLen mode buffer out norm norm'
      normKeyLen) :
    CipherRuns junk bufferLen key keyLen mode buffer out norm norm' normKeyLen where
  copied := (fmemcpy_take ..).symm.trans h.copied
  normalized := h.normalized
  filled := h.filled
  loop := h.loop
  returned := by
    rw [← cipher_take]
    exact h.returned

/-- A key of one byte or more, and of as many as there is room for, does no harm. -/
theorem cipherRuns (junk : Local) (mode : UInt32) (rest : List CChar) {k l : List CChar}
    (hne : k ≠ []) (hsize : k.length ≤ maxSize) (hlt : l.length < 2 ^ 32) :
    CipherRuns junk (UInt32.ofNat l.length) k (UInt32.ofNat k.length) mode (l ++ rest)
      (ciphered mode (keyValues k) l ++ rest) (k ++ junk.val.drop k.length)
      (written Arrays.inPlace (k ++ junk.val.drop k.length) 0 (keyValues k))
      (UInt32.ofNat (keyValues k).length) := by
  have hkeyLt : k.length < 2 ^ 32 := hsize.trans_lt (by decide)
  have hvaluesLt := (length_keyValues_le k).trans_lt hkeyLt
  have htake := take_written_values hvaluesLt (k ++ junk.val.drop k.length)
  refine ⟨fmemcpy_key hsize junk, normalizeKey_eq hkeyLt, fun res ↦ ?_, ?_,
    cipher_eq hne hsize hlt junk rest mode⟩
  · rw [htake, toNat_ofNat hvaluesLt, toNat_ofNat hkeyLt]
    exact normalizeFrom_apart hkeyLt (hsize.trans_eq res.property.symm)
  · rw [htake, toNat_ofNat hlt]
    exact cipherFrom_zero (keyValues_ne_nil hne) hvaluesLt (fun _ _ ↦ rfl) hlt rest

theorem exists_cipherRuns (hpos : keyLen ≠ 0) (hsize : keyLen.toNat ≤ maxSize)
    (hkey : keyLen.toNat ≤ key.length) (hbuffer : bufferLen.toNat ≤ buffer.length) :
    ∃ out norm norm' normKeyLen,
      CipherRuns junk bufferLen key keyLen mode buffer out norm norm' normKeyLen := by
  have hlen : (key.take keyLen.toNat).length = keyLen.toNat := List.length_take_of_le hkey
  have hllen : (buffer.take bufferLen.toNat).length = bufferLen.toNat :=
    List.length_take_of_le hbuffer
  have hne : key.take keyLen.toNat ≠ [] := by
    rw [← List.length_pos_iff, hlen, Nat.pos_iff_ne_zero]
    exact fun h ↦ hpos (UInt32.toNat_inj.mp h)
  have hruns := cipherRuns junk mode (buffer.drop bufferLen.toNat) hne
    (hlen.trans_le hsize) (hllen.trans_lt (UInt32.toNat_lt _))
  rw [hlen, hllen, UInt32.ofNat_toNat, UInt32.ofNat_toNat, List.take_append_drop] at hruns
  exact ⟨_, _, _, _, hruns.of_take⟩

/-- With an empty key the first byte of the buffer is followed by a remainder by zero. -/
theorem cipher_of_zero (junk : Local) (key : List CChar) (mode : UInt32)
    (hbuffer : bufferLen.toNat ≤ buffer.length) (hpos : bufferLen ≠ 0) :
    cipher junk bufferLen key 0 mode buffer = .error .division := by
  obtain ⟨c, cs, rfl⟩ : ∃ c cs, buffer = c :: cs := by
    refine List.exists_cons_of_ne_nil fun hnil ↦ hpos (UInt32.toNat_inj.mp ?_)
    rw [hnil] at hbuffer
    exact Nat.le_zero.mp hbuffer
  obtain ⟨n, hn⟩ := exists_toNat_eq_succ hpos
  have hcopied : fmemcpy junk.val key 0 = .ok junk.val := if_pos ⟨Nat.zero_le _, Nat.zero_le _⟩
  have hnormal : normalizeKey 0 junk.val = .ok (0, junk.val) := rfl
  obtain ⟨v, hv⟩ : ∃ v, junk.val[(0 : UInt32).toNat]? = some v :=
    ⟨_, List.getElem?_eq_getElem (junk.property.symm ▸ (by decide))⟩
  rw [cipher, if_neg (by decide), bind_apply, lift_apply, hcopied]
  dsimp only
  rw [bind_apply, lift_apply, hnormal]
  dsimp only
  rw [hn, cipherFrom, hv]
  rfl

/-- **What the cipher may touch.** It does what it may exactly if there is a key, or nothing to
encipher. -/
theorem cipherSafe_iff (hkey : keyLen.toNat ≤ key.length)
    (hbuffer : bufferLen.toNat ≤ buffer.length) :
    CipherSafe junk bufferLen key keyLen mode buffer ↔ keyLen ≠ 0 ∨ bufferLen = 0 := by
  by_cases hzero : keyLen = 0
  · subst hzero
    rw [or_iff_right (not_not_intro rfl)]
    constructor
    · intro h
      by_contra hpos
      have hfault := cipher_of_zero junk key mode hbuffer hpos
      rcases h with h | ⟨_, _, _, _, h⟩
      · cases hfault.symm.trans h
      · cases hfault.symm.trans h.returned
    · rintro rfl
      exact Or.inr ⟨buffer, junk.val, junk.val, 0, if_pos ⟨Nat.zero_le _, Nat.zero_le _⟩, rfl,
        fun _ ↦ rfl, rfl, rfl⟩
  · refine iff_of_true ?_ (Or.inl hzero)
    rcases Nat.lt_or_ge maxSize keyLen.toNat with hlong | hsize
    · exact Or.inl (by rw [cipher, if_pos hlong]; rfl)
    · exact Or.inr (exists_cipherRuns hzero hsize hkey hbuffer)

theorem cipherSafe_iff_c : CipherSafe zeroLocal 2 [99] 1 modeCipher [97, 98] ↔
    (1 : UInt32) ≠ 0 ∨ (2 : UInt32) = 0 :=
  cipherSafe_iff (by decide) (by decide)

/-- An empty key and one letter. -/
theorem not_cipherSafe : ¬∀ (junk : Local) (bufferLen : UInt32) (key : List CChar)
    (keyLen mode : UInt32) (buffer : List CChar), keyLen.toNat ≤ key.length →
    bufferLen.toNat ≤ buffer.length → CipherSafe junk bufferLen key keyLen mode buffer := by
  intro h
  have hsafe := h zeroLocal 1 [] 0 modeCipher [97] (by decide) (by decide)
  have hfault := cipher_of_zero zeroLocal [] modeCipher
    (show (1 : UInt32).toNat ≤ ([97] : List CChar).length by decide) (by decide)
  rcases hsafe with h | ⟨_, _, _, _, h⟩
  · cases hfault.symm.trans h
  · cases hfault.symm.trans h.returned

end Call

end Codec

end MinixClipboard
