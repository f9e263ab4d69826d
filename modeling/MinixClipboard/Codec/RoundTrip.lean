import MinixClipboard.Codec.PasteSafely
import MinixClipboard.Simulated.Spec

/-!
# Copying and pasting safely

`copy_safely` enciphers a text and compresses what comes out; `paste_safely` decompresses what it
gets and deciphers it. Both find out lengths by looking for a zero byte, and both work, for a text
of letters, as long as the decoder gives back what the encoder was given.

It does not for long runs, and it is the enciphered text that must not have them. Since the key is
periodic, this is a matter of text and key together (`LevelsOut`), and one the texts of the tests
are too short for.
-/

namespace MinixClipboard

namespace Codec

open Fallible Runs

/-! ## Copying -/

section Copy

variable {τ : Type} {s : τ} {text key c : List CChar} {keyLen r : UInt32} {tmp junk : Local}
  (hlen : text.length ≤ maxSize)
include hlen

/-- What `copy_safely` hands over are the runs of what `cipher` leaves, whatever it returns. -/
theorem copySafely_of_cipher
    (hcipher : cipher junk (UInt32.ofNat text.length) key keyLen modeCipher
      (text ++ tmp.val.drop text.length) = .ok (r, c ++ tmp.val.drop text.length))
    (hc : c.length = text.length)
    (copyToClipboard : List CChar → UInt32 → StateT τ (Except Fault) Int32) :
    copySafely copyToClipboard tmp junk text (UInt32.ofNat text.length) key keyLen s
      = (do
        let res ← copyToClipboard
          (encoded (runs c) ++ (c ++ tmp.val.drop text.length).drop (encoded (runs c)).length)
          (UInt32.ofNat (encoded (runs c)).length)
        return (res, UInt32.ofNat (encoded (runs c)).length)) s := by
  have hlt : text.length < 2 ^ 32 := hlen.trans_lt (by decide)
  have hcopy : fmemcpy tmp.val text (UInt32.ofNat text.length)
      = .ok (text ++ tmp.val.drop text.length) := fmemcpy_key hlen tmp
  have hcompress := compress_eq (A := Arrays.inPlace) (s := c ++ tmp.val.drop text.length) (l := c)
    (fun k hk ↦ List.getElem?_append_left hk) (hc ▸ hlt)
    ((length_encoded_runs_le c).trans (List.length_append ▸ Nat.le_add_right _ _))
  rw [hc, written_inPlace] at hcompress
  rw [copySafely, toNat_ofNat hlt, if_neg (Nat.not_lt.mpr hlen), bind_apply, lift_apply, hcopy]
  dsimp only
  rw [bind_apply, lift_apply, hcipher]
  dsimp only
  rw [bind_apply, lift_apply, hcompress]

theorem copySafely_eq (hkey : key ≠ []) (hsize : key.length ≤ maxSize)
    (copyToClipboard : List CChar → UInt32 → StateT τ (Except Fault) Int32) (tmp junk : Local) :
    ∃ rest, (encoded (runs (ciphered modeCipher (keyValues key) text)) ++ rest).length = maxSize ∧
      copySafely copyToClipboard tmp junk text (UInt32.ofNat text.length) key
          (UInt32.ofNat key.length) s
        = (do
          let res ← copyToClipboard
            (encoded (runs (ciphered modeCipher (keyValues key) text)) ++ rest)
            (UInt32.ofNat (encoded (runs (ciphered modeCipher (keyValues key) text))).length)
          return (res, UInt32.ofNat
            (encoded (runs (ciphered modeCipher (keyValues key) text))).length)) s := by
  have hcipher := cipher_eq hkey hsize (hlen.trans_lt (by decide)) junk (tmp.val.drop text.length)
    modeCipher
  have hc := length_ciphered modeCipher (keyValues key) text
  have henc := length_encoded_runs_le (ciphered modeCipher (keyValues key) text)
  refine ⟨_, ?_, copySafely_of_cipher hlen hcipher hc copyToClipboard⟩
  rw [List.length_append, List.length_drop, List.length_append, List.length_drop, tmp.property]
  omega

end Copy

/-! ## Pasting -/

theorem mem_encoded {rs : List (CChar × ℕ)} {c : CChar} (hc : c ∈ encoded rs) :
    isDigit c = true ∨ ∃ r ∈ rs, r.1 = c := by
  obtain ⟨r, hr, hcr⟩ := List.mem_flatMap.mp hc
  rw [piece] at hcr
  split at hcr
  · exact absurd hcr List.not_mem_nil
  split at hcr
  · exact Or.inr ⟨r, hr, (List.mem_singleton.mp hcr).symm⟩
  · rcases List.mem_cons.mp hcr with rfl | hcr
    · exact Or.inr ⟨r, hr, rfl⟩
    · exact Or.inl (isDigit_of_mem_decimal hcr)

/-- The encoding of a text is not empty. -/
theorem encoded_runs_ne_nil {text : List CChar} (hne : text ≠ []) : encoded (runs text) ≠ [] := by
  intro hnil
  rw [encoded, List.flatMap_eq_nil_iff] at hnil
  refine hne ?_
  rw [← expand_runs text, expand, List.flatMap_eq_nil_iff]
  intro r hr
  have hpos := pos_of_mem_runs hr
  have hpiece := hnil r hr
  rw [piece, if_neg (Nat.ne_of_gt hpos)] at hpiece
  split at hpiece
  · exact absurd hpiece (List.cons_ne_nil _ _)
  · exact absurd hpiece (List.cons_ne_nil _ _)

theorem mem_of_mem_recoveredText {text : List CChar} {c : CChar} (hc : c ∈ recoveredText text) :
    c ∈ text := by
  obtain ⟨r, hr, hcr⟩ := List.mem_flatMap.mp hc
  obtain ⟨run, hrun, rfl⟩ := List.mem_map.mp hr
  rw [(List.mem_replicate.mp hcr).2]
  exact fst_mem_of_mem_runs (r := run) hrun

theorem forall_encoded_ne_zero {text : List CChar} (hzeros : ∀ c ∈ text, c ≠ 0) :
    ∀ c ∈ encoded (runs text), c ≠ 0 := by
  rintro c hc rfl
  rcases mem_encoded hc with hdigit | ⟨r, hr, hr₀⟩
  · exact absurd hdigit (by decide)
  · exact hzeros _ (fst_mem_of_mem_runs hr) hr₀

theorem scan_append_zeros {l : List CChar} {bound : ℕ} (hl : ∀ c ∈ l, c ≠ 0)
    (hbound : l.length ≤ bound) (n : ℕ) : scan (l ++ List.replicate n 0) bound = l := by
  rw [scan_append hl hbound, scan_replicate_zero, List.append_nil]

section Paste

variable {τ : Type} {s s' : τ} {text key : List CChar} {size bufferLen : ℕ}

/-- What `paste_safely` makes of the runs of an enciphered text: it deciphers what the decoder gives
back of it. There is room for both if they fit the caller's buffer, which need not hold the text. -/
theorem pasteSafely_of_room {cipherText : List CChar} (hkey : key ≠ [])
    (hsize : key.length ≤ maxSize)
    (hdigits : ∀ c ∈ cipherText, isDigit c = false) (hzeros : ∀ c ∈ cipherText, c ≠ 0)
    (henc : (encoded (runs cipherText)).length ≤ bufferLen)
    (hrec : (recoveredText cipherText).length ≤ bufferLen) (hmax : bufferLen ≤ maxSize)
    {buffer : List CChar} (hbuffer : bufferLen ≤ buffer.length)
    {pasteFromClipboard : UInt32 → List CChar → UInt32 →
      StateT τ (Except Fault) (UInt32 × List CChar × UInt32)} {id : UInt32} {tmp : Local}
    (junk : Local)
    (hpaste : pasteFromClipboard id tmp.val (UInt32.ofNat bufferLen) s
      = .ok ((0, encoded (runs cipherText)
        ++ List.replicate (maxSize - (encoded (runs cipherText)).length) 0,
        UInt32.ofNat bufferLen), s')) :
    pasteSafely pasteFromClipboard tmp junk id buffer (UInt32.ofNat bufferLen) key
        (UInt32.ofNat key.length) s
      = .ok ((0, ciphered modeDecipher (keyValues key) (recoveredText cipherText)
        ++ (List.replicate (bufferLen - (recoveredText cipherText).length) 0
          ++ buffer.drop bufferLen)), s') := by
  have hlt : bufferLen < 2 ^ 32 := hmax.trans_lt (by decide)
  have hdecoded := decoded_encoded_runs hdigits
  -- neither the encoding nor what comes back has a zero byte, so that `slen` stops behind them
  have hRzeros : ∀ c ∈ recoveredText cipherText, c ≠ 0 := fun c hc ↦
    hzeros c (mem_of_mem_recoveredText hc)
  have hEzeros := forall_encoded_ne_zero hzeros
  generalize encoded (runs cipherText) = E at *
  generalize recoveredText cipherText = R at *
  -- the first scan ends behind the encoding, the second behind what the decoder leaves
  have hscan := scan_append_zeros hEzeros henc (maxSize - E.length)
  have hunpacked : unpacked E buffer bufferLen
      = R ++ (List.replicate (bufferLen - R.length) 0 ++ buffer.drop bufferLen) := by
    rw [unpacked, hdecoded, List.drop_append_of_le_length (by rwa [List.length_replicate]),
      List.drop_replicate]
  have hscan' : scan (shown E bufferLen) bufferLen = R := by
    rw [← scan_unpacked E buffer, hunpacked, scan_append hRzeros hrec,
      scan_zeros (Nat.le_refl _), List.append_nil]
  have hcipher := cipher_eq hkey hsize (l := R) (by omega) junk
    (List.replicate (bufferLen - R.length) 0 ++ buffer.drop bufferLen) modeDecipher
  have htotal : bufferLen ≤ (E ++ List.replicate (maxSize - E.length) (0 : CChar)).length := by
    rw [List.length_append, List.length_replicate]
    omega
  have hpasted := pasteSafely_of_scan hpaste
    (by rw [toNat_ofNat hlt]; exact Or.inl htotal)
    (show (UInt32.ofNat bufferLen).toNat ≤ buffer.length by rwa [toNat_ofNat hlt]) junk key
    (UInt32.ofNat key.length) (by rw [toNat_ofNat hlt, hscan, hdecoded]; exact hrec.trans_lt hlt)
    (by rw [toNat_ofNat hlt, hscan, hdecoded]; exact hrec.trans hbuffer)
  rwa [toNat_ofNat hlt, hscan, hscan', hunpacked, hcipher] at hpasted

theorem pasteSafely_eq {cipherText : List CChar} (hkey : key ≠ []) (hsize : key.length ≤ maxSize)
    (hdigits : ∀ c ∈ cipherText, isDigit c = false) (hzeros : ∀ c ∈ cipherText, c ≠ 0)
    (hfits : cipherText.length ≤ bufferLen) (hmax : bufferLen ≤ maxSize) {buffer : List CChar}
    (hbuffer : bufferLen ≤ buffer.length)
    {pasteFromClipboard : UInt32 → List CChar → UInt32 →
      StateT τ (Except Fault) (UInt32 × List CChar × UInt32)} {id : UInt32} {tmp junk : Local}
    (hpaste : pasteFromClipboard id tmp.val (UInt32.ofNat bufferLen) s
      = .ok ((0, encoded (runs cipherText)
        ++ List.replicate (maxSize - (encoded (runs cipherText)).length) 0,
        UInt32.ofNat bufferLen), s')) :
    pasteSafely pasteFromClipboard tmp junk id buffer (UInt32.ofNat bufferLen) key
        (UInt32.ofNat key.length) s
      = .ok ((0, ciphered modeDecipher (keyValues key) (recoveredText cipherText)
        ++ (List.replicate (bufferLen - (recoveredText cipherText).length) 0
          ++ buffer.drop bufferLen)), s') :=
  pasteSafely_of_room hkey hsize hdigits hzeros
    ((length_encoded_runs_le cipherText).trans hfits)
    ((length_recoveredText_le cipherText).trans hfits) hmax hbuffer junk hpaste

end Paste

/-! ## There and back -/

section RoundTrip

open Simulated (Process FreeId)

/-- Somewhere in the text, the key turns 26 letters in a row into the same one. -/
def LevelsOut (key text : List CChar) : Prop :=
  ∃ j c, ∀ t < 26, text[j + t]?.map (shift (keyShift key (j + t))) = some c

variable {text key : List CChar}

theorem levelsOut_iff :
    LevelsOut key text ↔ ∃ c, List.replicate 26 c <:+: enciphered key text := by
  rw [LevelsOut, exists_comm]
  refine exists_congr fun c ↦ ?_
  rw [List.infix_iff_getElem?]
  have hget : ∀ k, (enciphered key text)[k]? = text[k]?.map (shift (keyShift key k)) := fun k ↦
    List.getElem?_mapIdx
  constructor
  · rintro ⟨j, hj⟩
    refine ⟨j, ?_, fun t ht ↦ ?_⟩
    · -- the run ends within the text, since its last letter is there
      have hlast := hj 25 (by decide)
      rw [← hget] at hlast
      have hlt := (List.getElem?_eq_some_iff.mp hlast).1
      rw [List.length_replicate]
      omega
    · rw [List.length_replicate] at ht
      rw [List.getElem_replicate, hget, Nat.add_comm]
      exact hj t ht
  · rintro ⟨j, -, hj⟩
    refine ⟨j, fun t ht ↦ ?_⟩
    have htj := hj t (by rwa [List.length_replicate])
    rwa [List.getElem_replicate, hget, Nat.add_comm] at htj

/-- A text comes back from the clipboard: a copy returns an id, and a paste of this id, whose local
array is zero, leaves the text in its buffer, and zeros behind it. -/
def RoundTrips (choice : Option Addr) (text key buffer : List CChar) (bufferLen : ℕ)
    (tmp junk junk' : Local) (s : Process) : Prop :=
  ∃ (i : Fin bufMaxCount) (size : UInt32) (s₁ s₂ : Process),
    copySafely (Simulated.copyToClipboard choice) tmp junk text (UInt32.ofNat text.length) key
        (UInt32.ofNat key.length) s = .ok (((UInt32.ofNat i).toInt32, size), s₁) ∧
    pasteSafely Simulated.pasteFromClipboard zeroLocal junk' (UInt32.ofNat i) buffer
        (UInt32.ofNat bufferLen) key (UInt32.ofNat key.length) s₁
      = .ok ((0, text ++ (List.replicate (bufferLen - text.length) 0 ++ buffer.drop bufferLen)), s₂)

section Safely

variable {s : Process} {i : Fin bufMaxCount} (hfree : FreeId s i) (hnull : s.heap 0 = none)
  (hne : text ≠ []) (htext : ∀ c ∈ text, isLetter c = true) (hkeyne : key ≠ [])
  (hkey : ∀ c ∈ key, isDigit c = true ∨ isLetter c = true) (hsize : key.length ≤ maxSize)

theorem ne_zero_of_isLetter {c : CChar} (hc : isLetter c = true) : c ≠ 0 := by
  rintro rfl
  exact absurd hc (by decide)

theorem isDigit_of_isLetter {c : CChar} (hc : isLetter c = true) : isDigit c = false := by
  obtain ⟨base, p, hbase, hp, rfl⟩ := exists_letter hc
  exact isDigit_letter hbase hp

include hfree hnull hne htext hkeyne hkey hsize

theorem copySafely_of_freeId (hlen : text.length ≤ maxSize) (choice : Option Addr)
    (tmp junk : Local) :
    (s.heap.Succeeds choice ∧ ∃ size s₁ a,
      copySafely (Simulated.copyToClipboard choice) tmp junk text (UInt32.ofNat text.length) key
          (UInt32.ofNat key.length) s = .ok (((UInt32.ofNat i).toInt32, size), s₁) ∧
        s₁.heap 0 = none ∧ a ≠ 0 ∧ s₁.heap a = some (encoded (runs (enciphered key text))) ∧
        (s₁.entries i).inUse = .used ∧ (s₁.entries i).buffer = a ∧
        (s₁.entries i).bufferLen = UInt32.ofNat (encoded (runs (enciphered key text))).length) ∨
    ¬s.heap.Succeeds choice ∧
      copySafely (Simulated.copyToClipboard choice) tmp junk text (UInt32.ofNat text.length) key
          (UInt32.ofNat key.length) s = .error .pointer := by
  have hciphered := ciphered_eq hkey htext modeCipher
  rw [if_neg (by decide)] at hciphered
  obtain ⟨rest, hrest, hcopy⟩ := copySafely_eq (s := s) hlen hkeyne hsize
    (Simulated.copyToClipboard choice) tmp junk
  rw [hciphered] at hrest hcopy
  have henc := length_encoded_runs_le (enciphered key text)
  rw [length_enciphered] at henc
  have henciphered : enciphered key text ≠ [] := by
    rwa [← List.length_pos_iff, length_enciphered, List.length_pos_iff]
  have hEne := encoded_runs_ne_nil henciphered
  generalize encoded (runs (enciphered key text)) = E at *
  have hword : (UInt32.ofNat E.length).toNat = E.length :=
    toNat_ofNat (henc.trans_lt (hlen.trans_lt (by decide)))
  have hroom : (UInt32.ofNat E.length).toNat ≤ (E ++ rest).length := by
    rw [hword, List.length_append]
    exact Nat.le_add_right _ _
  rw [hcopy]
  rcases Simulated.copyToClipboard_of_freeId hroom hfree hnull choice with
    ⟨a, heap, hwrite, hplaces, hsucceeds⟩ | ⟨hfails, -, hwrite⟩
  · -- the store is kept, so the block is there and its address is not null
    have hbytes : heap.contents a = E := by
      rw [hplaces.contents, hword, List.take_left]
    have hsome : heap a = some E := by
      rw [Heap.contents] at hbytes
      cases hblock : heap a with
      | none => exact absurd (by rw [← hbytes, hblock]; rfl) hEne
      | some block => rw [← hbytes, hblock]; rfl
    have ha : a ≠ 0 := by
      rintro rfl
      rw [hplaces.same rfl, hnull] at hsome
      cases hsome
    have hentry : (Simulated.stored (Simulated.popped s) i (Simulated.copyMsg (E ++ rest)
        (UInt32.ofNat E.length)) a heap).entries i = ⟨UInt32.ofNat E.length, a,
          (Simulated.copyMsg (E ++ rest) (UInt32.ofNat E.length)).decompressedLen, .used⟩ :=
      Function.update_self ..
    refine Or.inl ⟨hsucceeds.mpr ha, _, _, a, by rw [bind_ok hwrite]; rfl, ?_, ha,
      hsome, ?_, ?_, ?_⟩
    · exact (hplaces.frame 0 (Ne.symm ha)).trans hnull
    · rw [hentry]
    · rw [hentry]
    · rw [hentry]
  · exact Or.inr ⟨hfails, by rw [bind_apply, hwrite]⟩

omit hfree hnull hne in
theorem pasteSafely_of_stored {bufferLen : ℕ} (hfits : text.length ≤ bufferLen)
    (hmax : bufferLen ≤ maxSize) {buffer : List CChar} (hbuffer : bufferLen ≤ buffer.length)
    (hnull : s.heap 0 = none) (hused : (s.entries i).inUse = .used)
    (hsome : s.heap (s.entries i).buffer = some (encoded (runs (enciphered key text))))
    (hstored : (s.entries i).bufferLen
      = UInt32.ofNat (encoded (runs (enciphered key text))).length) (junk : Local) :
    ∃ s', pasteSafely Simulated.pasteFromClipboard zeroLocal junk (UInt32.ofNat i) buffer
        (UInt32.ofNat bufferLen) key (UInt32.ofNat key.length) s
      = .ok ((0, deciphered key (recoveredText (enciphered key text))
        ++ (List.replicate (bufferLen - (recoveredText (enciphered key text)).length) 0
          ++ buffer.drop bufferLen)), s') := by
  have hletters : ∀ c ∈ enciphered key text, isLetter c = true := fun c ↦
    isLetter_of_mem_mapIdx htext
  have hdeciphered := @ciphered_eq key (recoveredText (enciphered key text)) hkey
    (fun c hc ↦ hletters c (mem_of_mem_recoveredText hc)) modeDecipher
  rw [if_pos rfl] at hdeciphered
  have henc := length_encoded_runs_le (enciphered key text)
  rw [length_enciphered] at henc
  have hword : (UInt32.ofNat (encoded (runs (enciphered key text))).length).toNat
      = (encoded (runs (enciphered key text))).length :=
    toNat_ofNat (henc.trans_lt ((hfits.trans hmax).trans_lt (by decide)))
  have hcontents : s.heap.contents (s.entries i).buffer = encoded (runs (enciphered key text)) := by
    rw [Heap.contents, hsome, Option.getD_some]
  obtain ⟨heap, hpaste, -, -⟩ := @Simulated.pasteFromClipboard_of_le _ _ zeroLocal.val
    (UInt32.ofNat bufferLen) hused
    (by
      rw [hstored, UInt32.le_iff_toNat_le, hword, toNat_ofNat (hmax.trans_lt (by decide))]
      exact henc.trans hfits)
    (by
      rw [hstored, hword, zeroLocal.property]
      exact henc.trans (hfits.trans hmax))
    (by rw [hcontents, hstored, hword]) (fun _ ↦ by rw [hsome]; rfl) hnull
  -- the array was zero, so zeros follow the encoding up to its end
  have hzero : zeroLocal.val.drop (encoded (runs (enciphered key text))).length
      = List.replicate (maxSize - (encoded (runs (enciphered key text))).length) 0 :=
    List.drop_replicate ..
  rw [hcontents, hstored, hword, hzero] at hpaste
  rw [← hdeciphered]
  exact ⟨_, pasteSafely_eq hkeyne hsize (fun c hc ↦ isDigit_of_isLetter (hletters c hc))
    (fun c hc ↦ ne_zero_of_isLetter (hletters c hc)) (by rwa [length_enciphered]) hmax hbuffer
    hpaste⟩

end Safely

/-- What comes back is the text exactly when the decoder has lost nothing. -/
theorem deciphered_recoveredText_iff (htext : ∀ c ∈ text, isLetter c = true) {bufferLen : ℕ}
    (hfits : text.length ≤ bufferLen) (behind : List CChar) :
    deciphered key (recoveredText (enciphered key text))
        ++ (List.replicate (bufferLen - (recoveredText (enciphered key text)).length) 0 ++ behind)
      = text ++ (List.replicate (bufferLen - text.length) 0 ++ behind) ↔
    recoveredText (enciphered key text) = enciphered key text := by
  have hletters : ∀ c ∈ enciphered key text, isLetter c = true := fun c ↦
    isLetter_of_mem_mapIdx htext
  have hle := length_recoveredText_le (enciphered key text)
  rw [length_enciphered] at hle
  constructor
  · intro h
    -- a shorter text would have a letter where there is a zero
    have hlen : (recoveredText (enciphered key text)).length = text.length := by
      by_contra hne
      have hlt : (recoveredText (enciphered key text)).length < text.length := by omega
      have hat := congrArg (·[(recoveredText (enciphered key text)).length]?) h
      rw [List.getElem?_append_right (by simp), length_deciphered, Nat.sub_self,
        List.getElem?_append_left (by rw [List.length_replicate]; omega),
        List.getElem?_replicate_of_lt (by omega), List.getElem?_append_left hlt] at hat
      exact ne_zero_of_isLetter (htext 0 (List.mem_of_getElem? hat.symm)) rfl
    have htext' := (List.append_inj h (by rw [length_deciphered, hlen])).1
    conv_rhs => rw [← htext']
    exact (enciphered_deciphered fun c hc ↦ hletters c (mem_of_mem_recoveredText hc)).symm
  · intro h
    rw [h, deciphered_enciphered htext, length_enciphered]

theorem lost_iff : recoveredText (enciphered key text) = enciphered key text ↔
    ¬LevelsOut key text := by
  rw [recoveredText_eq_iff, levelsOut_iff, ← exists_mem_runs_iff (by decide : 0 < 26)]
  simp only [not_exists, not_and, Nat.not_le]

section Iff

variable {s : Process} {i : Fin bufMaxCount} (hfree : FreeId s i) (hnull : s.heap 0 = none)
  (hne : text ≠ []) (htext : ∀ c ∈ text, isLetter c = true) (hkeyne : key ≠ [])
  (hkey : ∀ c ∈ key, isDigit c = true ∨ isLetter c = true) (hsize : key.length ≤ maxSize)
  {bufferLen : ℕ} (hfits : text.length ≤ bufferLen) (hmax : bufferLen ≤ maxSize)
  {buffer : List CChar} (hbuffer : bufferLen ≤ buffer.length)
  (choice : Option Addr) (tmp junk junk' : Local)
include hfree hnull hne htext hkeyne hkey hsize hfits hmax hbuffer

theorem of_roundTrips (h : RoundTrips choice text key buffer bufferLen tmp junk junk' s) :
    s.heap.Succeeds choice ∧ ¬LevelsOut key text := by
  obtain ⟨i', size', s₁', s₂', hcopy', hpaste'⟩ := h
  rcases copySafely_of_freeId hfree hnull hne htext hkeyne hkey hsize (hfits.trans hmax) choice tmp
    junk with ⟨hsucceeds, size, s₁, a, hcopy, hnull₁, -, hsome, hused, hbuf, hlen₁⟩ | ⟨-, hcopy⟩
  · rw [← hbuf] at hsome
    -- the copy returns one id and leaves one state
    have hsame := hcopy.symm.trans hcopy'
    simp only [Except.ok.injEq, Prod.mk.injEq] at hsame
    obtain ⟨⟨hid, -⟩, rfl⟩ := hsame
    have hid' := congrArg Int32.toUInt32 hid
    rw [UInt32.toUInt32_toInt32, UInt32.toUInt32_toInt32] at hid'
    obtain ⟨s₂, hpaste⟩ := pasteSafely_of_stored htext hkeyne hkey hsize hfits hmax hbuffer hnull₁
      hused hsome hlen₁ junk'
    have hboth := hpaste.symm.trans (hid' ▸ hpaste')
    simp only [Except.ok.injEq, Prod.mk.injEq] at hboth
    rw [deciphered_recoveredText_iff htext hfits] at hboth
    exact ⟨hsucceeds, lost_iff.mp hboth.1.2⟩
  · rw [hcopy] at hcopy'
    cases hcopy'

/-- **The round trip.** A text of letters comes back exactly when there is memory for it, and the
key does not turn 26 of its letters in a row into the same one. -/
theorem roundTrips_iff :
    RoundTrips choice text key buffer bufferLen tmp junk junk' s ↔
      s.heap.Succeeds choice ∧ ¬LevelsOut key text := by
  constructor
  · intro h
    exact of_roundTrips hfree hnull hne htext hkeyne hkey hsize hfits hmax hbuffer choice tmp junk
      junk' h
  · rintro ⟨hsucceeds, hlevels⟩
    rcases copySafely_of_freeId hfree hnull hne htext hkeyne hkey hsize (hfits.trans hmax) choice
      tmp junk with ⟨-, size, s₁, a, hcopy, hnull₁, -, hsome, hused, hbuf, hlen₁⟩ | ⟨hfails, -⟩
    · rw [← hbuf] at hsome
      obtain ⟨s₂, hpaste⟩ := pasteSafely_of_stored htext hkeyne hkey hsize hfits hmax hbuffer
        hnull₁ hused hsome hlen₁ junk'
      rw [(deciphered_recoveredText_iff htext hfits _).mpr (lost_iff.mpr hlevels)] at hpaste
      exact ⟨i, size, s₁, s₂, hcopy, hpaste⟩
    · exact absurd hsucceeds hfails

end Iff

theorem roundTrips_iff_ab : RoundTrips (some 8) [97, 98] [99] [0, 0] 2 zeroLocal zeroLocal zeroLocal
    (Simulated.initial 4096) ↔
      (Simulated.initial 4096).heap.Succeeds (some 8) ∧ ¬LevelsOut [99] [97, 98] :=
  roundTrips_iff (Simulated.freeId_initial (by decide)) rfl (by decide) (by decide +kernel)
    (by decide) (by decide +kernel) (by decide) (by decide) (by decide) (by decide) (some 8)
    zeroLocal zeroLocal zeroLocal

/-- A row of 26 times `a` does not come back. -/
theorem not_roundTrips_aaa : ¬RoundTrips (some 8) (List.replicate 26 97) [97] (List.replicate 26 0)
    26 zeroLocal zeroLocal zeroLocal (Simulated.initial 4096) := by
  intro h
  have hlevels := of_roundTrips (Simulated.freeId_initial (by decide)) rfl (by decide)
    (by decide +kernel) (by decide) (by decide +kernel) (by decide) (by decide) (by decide)
    (by decide) _ _ _ _ h
  exact hlevels.2 ⟨0, 97, by decide +kernel⟩

end RoundTrip

end Codec

end MinixClipboard
