import MinixClipboard.Codec.Cipher
import Mathlib.Data.List.TakeWhile

/-!
# What a safe paste does with what it gets

`paste_safely` is not told how many bytes it has been given. It looks for a zero byte in its array,
up to the length of its caller's buffer (`scan`), and what stands before it is decompressed and
deciphered. This file says what comes of this, whatever has been pasted: how the call ends if the
scan finds an end and the decoded bytes fit (`pasteSafely_of_scan`), and the two ways it goes wrong
if not.
-/

namespace MinixClipboard

namespace Codec

open Fallible

/-! ## Looking for the end -/

section Scan

variable {l rest : List CChar} {bound : ℕ}

/-- The bytes before the first zero byte, among this many. -/
def scan (l : List CChar) (bound : ℕ) : List CChar := (l.take bound).takeWhile (· ≠ 0)

theorem slen_scan (h : bound ≤ l.length ∨ 0 ∈ l) : slen l bound = .ok (scan l bound).length := by
  induction l generalizing bound with
  | nil =>
    have hbound : bound = 0 := by simpa using h
    rw [hbound]
    rfl
  | cons c cs ih =>
    cases bound with
    | zero => rfl
    | succ bound =>
      by_cases hc : c = 0
      · subst hc
        rfl
      · have hrest : bound ≤ cs.length ∨ 0 ∈ cs := by
          rw [List.length_cons, List.mem_cons] at h
          exact h.imp Nat.le_of_succ_le_succ fun h ↦ h.resolve_left (Ne.symm hc)
        have hscan : scan (c :: cs) (bound + 1) = c :: scan cs bound := by
          rw [scan, List.take_succ_cons, List.takeWhile_cons_of_pos (by simpa using hc)]
          rfl
        rw [slen, if_pos hc, ih hrest, hscan]
        rfl

theorem slen_error (hlt : l.length < bound) (h : 0 ∉ l) : slen l bound = .error .pointer := by
  induction l generalizing bound with
  | nil =>
    obtain ⟨bound, rfl⟩ := Nat.exists_eq_succ_of_ne_zero (Nat.ne_of_gt hlt)
    rfl
  | cons c cs ih =>
    rw [List.mem_cons, not_or] at h
    rw [List.length_cons] at hlt
    obtain ⟨bound, rfl⟩ : ∃ b, bound = b + 1 := ⟨bound - 1, by omega⟩
    rw [slen, if_pos (Ne.symm h.1), ih (by omega) h.2]
    rfl

theorem scan_take (l : List CChar) (bound : ℕ) : scan (l.take bound) bound = scan l bound := by
  rw [scan, List.take_take, Nat.min_self, scan]

theorem scan_isPrefixOf (l : List CChar) (bound : ℕ) : scan l bound <+: l :=
  (List.takeWhile_prefix _).trans (List.take_prefix _ _)

theorem length_scan_le (l : List CChar) (bound : ℕ) : (scan l bound).length ≤ bound :=
  ((List.takeWhile_prefix _).length_le).trans (List.length_take_le _ _)

theorem getElem?_of_lt_scan {k : ℕ} (hk : k < (scan l bound).length) :
    l[k]? = (scan l bound)[k]? := by
  obtain ⟨t, ht⟩ := scan_isPrefixOf l bound
  conv_lhs => rw [← ht]
  exact List.getElem?_append_left hk

theorem scan_append_of_mem (h : 0 ∈ l) (hbound : l.length ≤ bound) :
    scan (l ++ rest) bound = l.takeWhile (· ≠ 0) := by
  rw [scan, List.take_append, List.take_of_length_le hbound, List.takeWhile_append, if_neg]
  intro hlen
  have hall := (List.takeWhile_prefix (l := l) (· ≠ 0)).eq_of_length hlen
  rw [← hall] at h
  simpa using List.mem_takeWhile_imp h

theorem scan_append (hl : ∀ c ∈ l, c ≠ 0) (hbound : l.length ≤ bound) :
    scan (l ++ rest) bound = l ++ scan rest (bound - l.length) := by
  rw [scan, List.take_append, List.take_of_length_le hbound,
    List.takeWhile_append_of_pos (by simpa using hl)]
  rfl

/-- Where as many bytes are looked at as there are before them, the others do not matter. -/
theorem scan_append_of_length (hbound : l.length = bound) :
    scan (l ++ rest) bound = l.takeWhile (· ≠ 0) := by
  rw [scan, List.take_left' hbound]

theorem scan_replicate_zero (n bound : ℕ) : scan (List.replicate n 0) bound = [] := by
  rw [scan, List.take_replicate]
  cases min bound n <;> rfl

theorem scan_zeros {n : ℕ} (hbound : bound ≤ n) : scan (List.replicate n 0 ++ rest) bound = [] := by
  rw [scan, List.take_append_of_le_length (by rwa [List.length_replicate])]
  exact scan_replicate_zero n bound

end Scan

/-! ## Decompressing and deciphering -/

section Paste

variable {τ : Type} {s s' : τ} {tmp junk : Local} {id bufferLen keyLen len r : UInt32}
  {buffer left key : List CChar}
  {pasteFromClipboard : UInt32 → List CChar → UInt32 →
    StateT τ (Except Fault) (UInt32 × List CChar × UInt32)}

/-- The buffer once it is cleared and these bytes are decompressed into it. -/
def unpacked (bytes buffer : List CChar) (bufferLen : ℕ) : List CChar :=
  decoded bytes
    ++ (List.replicate bufferLen 0 ++ buffer.drop bufferLen).drop (decoded bytes).length

/-- The first bytes of it, which is as far as the caller has asked for. -/
def shown (bytes : List CChar) (bufferLen : ℕ) : List CChar :=
  (decoded bytes).take bufferLen ++ List.replicate (bufferLen - (decoded bytes).length) 0

@[simp] theorem length_shown (bytes : List CChar) (bufferLen : ℕ) :
    (shown bytes bufferLen).length = bufferLen := by
  rw [shown, List.length_append, List.length_take, List.length_replicate]
  omega

theorem take_unpacked (bytes buffer : List CChar) (bufferLen : ℕ) :
    (unpacked bytes buffer bufferLen).take bufferLen = shown bytes bufferLen := by
  rw [unpacked, shown, List.take_append, ← List.drop_take,
    List.take_left' List.length_replicate, List.drop_replicate]

theorem scan_unpacked (bytes buffer : List CChar) (bufferLen : ℕ) :
    scan (unpacked bytes buffer bufferLen) bufferLen = scan (shown bytes bufferLen) bufferLen := by
  rw [← take_unpacked bytes buffer, scan_take]

theorem length_unpacked {bytes buffer : List CChar} {bufferLen : ℕ}
    (hbuffer : bufferLen ≤ buffer.length) (hfits : (decoded bytes).length ≤ buffer.length) :
    (unpacked bytes buffer bufferLen).length = buffer.length := by
  rw [unpacked, List.length_append, List.length_drop, List.length_append, List.length_replicate,
    List.length_drop]
  omega

/-- What `paste_safely` returns and leaves, for what `cipher` makes of its buffer. -/
def pasted (s' : τ) : Except Fault (UInt32 × List CChar) →
    Except Fault ((UInt32 × List CChar) × τ)
  | .ok (_, buffer) => .ok ((0, buffer), s')
  | .error e => .error e

theorem pasteSafely_of_ne_zero (junk : Local) (buffer key : List CChar) (keyLen : UInt32)
    (hpaste : pasteFromClipboard id tmp.val bufferLen s = .ok ((r, left, len), s')) (hr : r ≠ 0) :
    pasteSafely pasteFromClipboard tmp junk id buffer bufferLen key keyLen s
      = .ok ((r, buffer), s') := by
  rw [pasteSafely, bind_ok hpaste]
  dsimp only
  rw [if_pos hr]
  rfl

variable (hpaste : pasteFromClipboard id tmp.val bufferLen s = .ok ((0, left, len), s'))
include hpaste

/-- Where there is no zero byte, and the caller's buffer is longer than the array, the scan reads
behind the array. -/
theorem pasteSafely_of_overread (hlt : left.length < bufferLen.toNat) (hzero : 0 ∉ left) :
    pasteSafely pasteFromClipboard tmp junk id buffer bufferLen key keyLen s = .error .pointer := by
  rw [pasteSafely, bind_ok hpaste]
  dsimp only
  rw [if_neg (fun h ↦ h rfl), bind_apply, lift_apply, slen_error hlt hzero]

/-- Up to the cipher, one statement after the other. -/
theorem pasteSafely_of_decoded (junk : Local) (key : List CChar) (keyLen : UInt32)
    {text₁ text₂ left' : List CChar} {n n' : ℕ} (hslen : slen left bufferLen.toNat = .ok n)
    (hclear : fmemset buffer 0 bufferLen = .ok text₁)
    (hdecompress : decompress Arrays.apart (UInt32.ofNat n) (left, text₁)
      = .ok ((), (left', text₂)))
    (hslen' : slen text₂ bufferLen.toNat = .ok n') :
    pasteSafely pasteFromClipboard tmp junk id buffer bufferLen key keyLen s
      = pasted s' (cipher junk (UInt32.ofNat n') key keyLen modeDecipher text₂) := by
  rw [pasteSafely, bind_ok hpaste]
  dsimp only
  rw [if_neg (fun h ↦ h rfl), bind_apply, lift_apply, hslen]
  dsimp only
  rw [bind_apply, lift_apply, hclear]
  dsimp only
  rw [bind_apply, lift_apply, hdecompress]
  dsimp only
  rw [bind_apply, lift_apply, hslen']
  dsimp only
  rw [bind_apply, lift_apply]
  cases cipher junk _ key keyLen modeDecipher _ <;> rfl

variable (hscan : bufferLen.toNat ≤ left.length ∨ 0 ∈ left)
include hscan

variable (hbuffer : bufferLen.toNat ≤ buffer.length)
include hbuffer

/-- Where the decoded bytes do not fit, the decoder writes behind the caller's array. -/
theorem pasteSafely_of_overrun (hlt : buffer.length < 2 ^ 32)
    (hover : buffer.length < (decoded (scan left bufferLen.toNat)).length) :
    pasteSafely pasteFromClipboard tmp junk id buffer bufferLen key keyLen s = .error .pointer := by
  obtain ⟨text, hclear, hlength⟩ : ∃ text, fmemset buffer 0 bufferLen = .ok text ∧
      text.length = buffer.length := by
    refine ⟨_, if_pos hbuffer, ?_⟩
    rw [List.length_append, List.length_replicate, List.length_drop]
    omega
  have hdecompress := decompress_error (s := (left, text)) (b := scan left bufferLen.toNat)
    (fun _ _ ↦ getElem?_of_lt_scan ‹_›) ((length_scan_le _ _).trans_lt bufferLen.toNat_lt)
    (hlength.trans_lt hlt) (hlength.trans_lt hover)
  rw [pasteSafely, bind_ok hpaste]
  dsimp only
  rw [if_neg (fun h ↦ h rfl), bind_apply, lift_apply, slen_scan hscan]
  dsimp only
  rw [bind_apply, lift_apply, hclear]
  dsimp only
  rw [bind_apply, lift_apply, hdecompress]

/-- **Pasting safely.** Where they fit, what is deciphered are the decoded bytes, up to the first
zero byte among those the caller has asked for. -/
theorem pasteSafely_of_scan (junk : Local) (key : List CChar) (keyLen : UInt32)
    (hlt : (decoded (scan left bufferLen.toNat)).length < 2 ^ 32)
    (hfits : (decoded (scan left bufferLen.toNat)).length ≤ buffer.length) :
    pasteSafely pasteFromClipboard tmp junk id buffer bufferLen key keyLen s
      = pasted s' (cipher junk (UInt32.ofNat (scan (shown (scan left bufferLen.toNat)
          bufferLen.toNat) bufferLen.toNat).length) key keyLen modeDecipher
        (unpacked (scan left bufferLen.toNat) buffer bufferLen.toNat)) := by
  have hclear : fmemset buffer 0 bufferLen
      = .ok (List.replicate bufferLen.toNat 0 ++ buffer.drop bufferLen.toNat) := by
    rw [fmemset, if_pos hbuffer]
    rfl
  have hdecompress := decompress_eq
    (s := (left, List.replicate bufferLen.toNat 0 ++ buffer.drop bufferLen.toNat))
    (l := scan left bufferLen.toNat) (fun _ ↦ getElem?_of_lt_scan)
    ((length_scan_le _ _).trans_lt bufferLen.toNat_lt) hlt
    (by rw [List.length_append, List.length_replicate, List.length_drop]; omega)
  rw [written_apart, ← unpacked] at hdecompress
  have hslen := slen_scan (l := unpacked (scan left bufferLen.toNat) buffer bufferLen.toNat)
    (.inl (hbuffer.trans_eq (length_unpacked hbuffer hfits).symm))
  rw [scan_unpacked] at hslen
  exact pasteSafely_of_decoded hpaste junk key keyLen (slen_scan hscan) hclear hdecompress hslen

omit hpaste hscan hbuffer in
/-- With enough room behind the buffer, `paste_safely` returns whatever it has received, and what it
leaves does not depend on what the array of `cipher` holds at first. -/
theorem exists_pasteSafely
    (hpaste : pasteFromClipboard id tmp.val bufferLen s = .ok ((r, left, len), s'))
    (hscan : bufferLen.toNat ≤ left.length) (hroom : 25 * bufferLen.toNat ≤ buffer.length)
    (hlt : 25 * bufferLen.toNat < 2 ^ 32) (hkey : keyLen ≠ 0)
    (hkeyLen : key.length = keyLen.toNat) :
    ∃ buffer', ∀ junk, pasteSafely pasteFromClipboard tmp junk id buffer bufferLen key keyLen s
      = .ok ((r, buffer'), s') := by
  by_cases hr : r = 0
  · subst hr
    have hbuffer : bufferLen.toNat ≤ buffer.length := by omega
    have hle := (length_decoded_le (scan left bufferLen.toNat)).trans
      (Nat.mul_le_mul_left 25 (length_scan_le left bufferLen.toNat))
    have hpasted := fun junk ↦ pasteSafely_of_scan hpaste (.inl hscan) hbuffer junk key keyLen
      (hle.trans_lt hlt) (hle.trans hroom)
    have hlength := length_unpacked hbuffer (hle.trans hroom)
    have hscanned := length_scan_le (shown (scan left bufferLen.toNat) bufferLen.toNat)
      bufferLen.toNat
    obtain ⟨r, buffer', -, hcipher⟩ := exists_cipher hkey hkeyLen
      ((toNat_ofNat (hscanned.trans_lt bufferLen.toNat_lt)).trans_le
        ((hscanned.trans hbuffer).trans_eq hlength.symm)) modeDecipher
    refine ⟨buffer', fun junk ↦ ?_⟩
    rw [hpasted, hcipher]
    rfl
  · exact ⟨buffer, fun junk ↦ pasteSafely_of_ne_zero junk buffer key keyLen hpaste hr⟩

end Paste

end Codec

end MinixClipboard
