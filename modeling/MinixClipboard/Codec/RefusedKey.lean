import MinixClipboard.Codec.RoundTrip

/-!
# Keys that are refused

`cipher` refuses a key of more than `MAX_SIZE` bytes, and says so. `copy_safely` does not listen: it
compresses what is in its array and hands it over, and if the key was refused this is the text
itself. So it keeps what it promises exactly for the keys that are not refused
(`handsOverCiphertext_iff`).
-/

namespace MinixClipboard

namespace Codec

open Fallible Runs

variable {text key : List CChar} {keyLen : UInt32} {tmp junk : Local}

/-- What `cipher` makes of the array of `copy_safely`, and what it returns. -/
def copyCipher (text key : List CChar) (keyLen : UInt32) (tmp junk : Local) :
    Except Fault (UInt32 × List CChar) :=
  cipher junk (UInt32.ofNat text.length) key keyLen modeCipher (text ++ tmp.val.drop text.length)

/-- Nothing leaves `copy_safely` but enciphered text, whoever takes it. -/
structure HandsOverCiphertext (text key : List CChar) (keyLen : UInt32) (tmp junk : Local) :
    Prop where
  /-- If the key is refused, `copy_to_clipboard` is not called and `*buffer_len` stays. -/
  refused : ∀ c, copyCipher text key keyLen tmp junk = .ok (-1, c) →
    ∀ (τ : Type) (copyToClipboard : List CChar → UInt32 → StateT τ (Except Fault) Int32) (s : τ),
      copySafely copyToClipboard tmp junk text (UInt32.ofNat text.length) key keyLen s
        = .ok ((-1, UInt32.ofNat text.length), s)
  /-- Otherwise it is called with what `compress` makes of the enciphered text. -/
  accepted : ∀ r c, copyCipher text key keyLen tmp junk = .ok (r, c) → r ≠ -1 → ∃ out rest,
    (∀ dst : List CChar, text.length ≤ dst.length →
      compress Arrays.apart (UInt32.ofNat text.length) (c, dst)
        = .ok (UInt32.ofNat out.length, (c, out ++ dst.drop out.length))) ∧
    ∀ (τ : Type) (copyToClipboard : List CChar → UInt32 → StateT τ (Except Fault) Int32) (s : τ),
      copySafely copyToClipboard tmp junk text (UInt32.ofNat text.length) key keyLen s
        = (do
          let res ← copyToClipboard (out ++ rest) (UInt32.ofNat out.length)
          return (res, UInt32.ofNat out.length)) s

theorem copyCipher_of_lt (hsize : maxSize < keyLen.toNat) (text key : List CChar)
    (tmp junk : Local) :
    copyCipher text key keyLen tmp junk = .ok (-1, text ++ tmp.val.drop text.length) := by
  rw [copyCipher, cipher, if_pos hsize]
  rfl

theorem copyCipher_of_le (hlen : text.length ≤ maxSize) (hpos : keyLen ≠ 0)
    (hkey : keyLen.toNat ≤ key.length) (hsize : keyLen.toNat ≤ maxSize) (tmp junk : Local) :
    copyCipher text key keyLen tmp junk
      = .ok (0, ciphered modeCipher (keyValues (key.take keyLen.toNat)) text
        ++ tmp.val.drop text.length) := by
  have htake : (key.take keyLen.toNat).length = keyLen.toNat := List.length_take_of_le hkey
  have hne : key.take keyLen.toNat ≠ [] := by
    rw [← List.length_pos_iff, htake, Nat.pos_iff_ne_zero]
    exact fun h ↦ hpos (UInt32.toNat_inj.mp h)
  have hcipher := cipher_eq hne (htake.trans_le hsize) (hlen.trans_lt (by decide)) junk
    (tmp.val.drop text.length) modeCipher
  rwa [htake, UInt32.ofNat_toNat, cipher_take] at hcipher

theorem not_handsOverCiphertext (hlen : text.length ≤ maxSize) (hsize : maxSize < keyLen.toNat) :
    ¬HandsOverCiphertext text key keyLen tmp junk := by
  intro h
  have hcipher := copyCipher_of_lt hsize text key tmp junk
  have hcopy := copySafely_of_cipher (s := ()) hlen hcipher rfl fun _ _ ↦ pure 0
  have hboth := hcopy.symm.trans (h.refused _ hcipher Unit (fun _ _ ↦ pure 0) ())
  have hzero : (0 : Int32) = -1 := by
    injection hboth with hpair
    exact congrArg (fun x ↦ x.1.1) hpair
  exact absurd hzero (by decide)

/-- **Refused keys.** `copy_safely` hands over enciphered text, or nothing, exactly if the key is
not too long for `cipher`. -/
theorem handsOverCiphertext_iff (hlen : text.length ≤ maxSize) (hpos : keyLen ≠ 0)
    (hkey : keyLen.toNat ≤ key.length) :
    HandsOverCiphertext text key keyLen tmp junk ↔ keyLen.toNat ≤ maxSize := by
  constructor
  · intro h
    by_contra hsize
    exact not_handsOverCiphertext hlen (Nat.lt_of_not_le hsize) h
  · intro hsize
    have hcipher := copyCipher_of_le hlen hpos hkey hsize tmp junk
    have hc : (ciphered modeCipher (keyValues (key.take keyLen.toNat)) text).length = text.length :=
      length_ciphered ..
    refine ⟨fun c hrefused ↦ ?_, fun r c haccepted hr ↦ ?_⟩
    · cases hcipher.symm.trans hrefused
    have hsame := hcipher.symm.trans haccepted
    rw [Except.ok.injEq, Prod.mk.injEq] at hsame
    obtain ⟨-, rfl⟩ := hsame
    refine ⟨_, _, fun dst hdst ↦ ?_, fun τ copyToClipboard s ↦
      copySafely_of_cipher hlen hcipher hc copyToClipboard⟩
    have hcompress := compress_eq (A := Arrays.apart) (s := (_ ++ tmp.val.drop text.length, dst))
      (fun k hk ↦ List.getElem?_append_left hk) (hc ▸ hlen.trans_lt (by decide))
      ((length_encoded_runs_le _).trans (hc.trans_le hdst))
    rwa [hc, written_apart] at hcompress

theorem handsOverCiphertext_iff_c : HandsOverCiphertext [97, 98] [99] 1 zeroLocal zeroLocal ↔
    (1 : UInt32).toNat ≤ maxSize :=
  handsOverCiphertext_iff (by decide) (by decide) (by decide)

/-- One letter, and a key of 1025. -/
theorem not_forall_handsOverCiphertext : ¬∀ (text key : List CChar) (keyLen : UInt32)
    (tmp junk : Local), text.length ≤ maxSize → keyLen ≠ 0 → keyLen.toNat ≤ key.length →
    HandsOverCiphertext text key keyLen tmp junk := by
  intro h
  have hkey : (1025 : UInt32).toNat ≤ (List.replicate 1025 (97 : CChar)).length :=
    (List.length_replicate ..).ge
  exact not_handsOverCiphertext (by decide) (by decide)
    (h [97] _ 1025 zeroLocal zeroLocal (by decide) (by decide) hkey)

end Codec

end MinixClipboard
