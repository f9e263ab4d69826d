import MinixClipboard.Codec.RoundTrip
import MinixClipboard.Simulated.Agreement

/-!
# The safe functions as a vault

A process calls `copy_safely` and `paste_safely` in any order, with any texts of letters and any
keys, on one simulated clipboard. From outside this is a vault: a text goes in under a key, gets an
id that no other text has had, and comes out once, with any key.

What comes out need not be what went in. It is the same text exactly when the two keys shift each of
its letters alike and the first key leaves no run behind that is too long (`openedText_eq_iff`). And
the room for a text is checked before it is decompressed, so that a text with runs may not fit a
buffer it has been found to fit: such a paste is the only call that does not return.
-/

namespace MinixClipboard

namespace Simulated

open Codec Fallible Runs

/-! ## The vault -/

/-- A text of letters that `copy_safely` accepts. -/
structure Text where
  letters : List CChar
  isLetter : ∀ c ∈ letters, isLetter c = true
  length_le : letters.length ≤ maxSize

/-- A key of letters and digits that `cipher` accepts. -/
structure Key where
  chars : List CChar
  ne_nil : chars ≠ []
  isAlnum : ∀ c ∈ chars, isDigit c = true ∨ Codec.isLetter c = true
  length_le : chars.length ≤ maxSize

abbrev Room := { buffer : List CChar // buffer.length ≤ maxSize }

/-- A call of one of the safe functions. -/
inductive SafeCall
  | copy (text : Text) (key : Key)
  | paste (id : Fin bufMaxCount) (buffer : Room) (key : Key)

/-- What a safe function returns, and the `*buffer_len` or the buffer it leaves. -/
inductive SafeResult
  | copied (res : Int32) (size : UInt32)
  | pasted (res : UInt32) (buffer : List CChar)
  deriving DecidableEq

/-- What is stored of a text. -/
def sealedText (text : Text) (key : Key) : List CChar :=
  encoded (runs (enciphered key.chars text.letters))

/-- What a key makes of a text that is stored under another one. -/
def openedText (key' : Key) (text : Text) (key : Key) : List CChar :=
  deciphered key'.chars (recoveredText (enciphered key.chars text.letters))

/-- What a vault has under an id. -/
inductive Cell
  | unused
  | stored (text : Text) (key : Key)
  | gone

/-- The bytes that are stored for it. -/
def Cell.bytes : Cell → Option (List CChar)
  | .stored text key => some (sealedText text key)
  | _ => none

abbrev Vault := Fin bufMaxCount → Cell

/-- What a call does to a vault. -/
inductive VaultStep (m : Vault) : SafeCall × SafeResult → Vault → Prop
  /-- A text gets the greatest of the unused ids. -/
  | copied {text : Text} {key : Key} {i : Fin bufMaxCount}
      (unused : IsGreatest {j | m j = .unused} i) :
      VaultStep m (.copy text key, .copied (UInt32.ofNat i).toInt32
        (UInt32.ofNat (sealedText text key).length)) (Function.update m i (.stored text key))
  /-- Every id has been used. -/
  | full {text : Text} {key : Key} (used : ∀ i, m i ≠ .unused) :
      VaultStep m (.copy text key,
        .copied (-1) (UInt32.ofNat (sealedText text key).length)) m
  /-- A text is taken out that fits, as it is stored and as it comes out. -/
  | pasted {text : Text} {key key' : Key} {i : Fin bufMaxCount} {buffer : Room}
      (stored : m i = .stored text key) (fits : (sealedText text key).length ≤ buffer.val.length)
      (fits' : (openedText key' text key).length ≤ buffer.val.length) :
      VaultStep m (.paste i buffer key', .pasted 0 (openedText key' text key
        ++ List.replicate (buffer.val.length - (openedText key' text key).length) 0))
        (Function.update m i .gone)
  /-- There is nothing, or it does not fit. -/
  | refused {key' : Key} {i : Fin bufMaxCount} {buffer : Room}
      (fits : ∀ text key, m i = .stored text key →
        buffer.val.length < (sealedText text key).length) :
      VaultStep m (.paste i buffer key', .pasted (-1) buffer.val) m

/-- A paste of what fits as it is stored, and does not as it comes out. -/
def Overruns (m : Vault) : SafeCall → Prop
  | .copy _ _ => False
  | .paste i buffer key' => ∃ text key, m i = .stored text key ∧
    (sealedText text key).length ≤ buffer.val.length ∧
    buffer.val.length < (openedText key' text key).length

/-! ## What comes out -/

section Opened

variable {text : Text} {key key' : Key}

theorem shift_eq_self_iff {base p : ℕ} (hbase : base = 65 ∨ base = 97) (hp : p < 26) {v : ℤ} :
    shift v (letter base p) = letter base p ↔ v % 26 = 0 := by
  have hq : ((p + v) % 26).toNat < 26 := by omega
  rw [shift_letter hbase hp]
  constructor
  · intro h
    have hposition := congrArg position h
    rw [position_letter hbase hq, position_letter hbase hp] at hposition
    omega
  · intro h
    congr 1
    omega

theorem keyShift_mem (key : Key) (k : ℕ) :
    0 ≤ keyShift key.chars k ∧ keyShift key.chars k < 26 := by
  have hlt := getD_shifts_lt key.isAlnum (k % (shifts key.chars).length)
  rw [keyShift]
  omega

/-- Deciphering with another key gives the text if both keys shift all of its letters alike. -/
theorem deciphered_enciphered_eq_iff (text : Text) (key key' : Key) :
    deciphered key'.chars (enciphered key.chars text.letters) = text.letters ↔
      ∀ k < text.letters.length, keyShift key.chars k = keyShift key'.chars k := by
  -- letter by letter, where the two shifts are one
  have hletter : ∀ k (hk : k < text.letters.length),
      shift (-keyShift key'.chars k) (shift (keyShift key.chars k) text.letters[k])
        = text.letters[k] ↔ keyShift key.chars k = keyShift key'.chars k := by
    intro k hk
    obtain ⟨base, p, hbase, hp, hc⟩ := exists_letter (text.isLetter _ (List.getElem_mem hk))
    have hkey := keyShift_mem key k
    have hkey' := keyShift_mem key' k
    rw [hc, shift_shift hbase hp, shift_eq_self_iff hbase hp]
    omega
  constructor
  · intro h k hk
    rw [← hletter k hk]
    have hat := congrArg (·[k]?) h
    simpa [deciphered, enciphered, List.getElem?_mapIdx, List.getElem?_eq_getElem hk] using hat
  · intro h
    refine List.ext_getElem (by simp) fun k hk hk' ↦ ?_
    simp only [deciphered, enciphered, List.getElem_mapIdx]
    exact (hletter k hk').mpr (h k hk')

theorem openedText_eq_iff : openedText key' text key = text.letters ↔
    ¬LevelsOut key.chars text.letters ∧
      ∀ k < text.letters.length, keyShift key.chars k = keyShift key'.chars k := by
  rw [← deciphered_enciphered_eq_iff, ← lost_iff, openedText]
  constructor
  · intro h
    have hlen := congrArg List.length h
    rw [length_deciphered, ← length_enciphered key.chars text.letters] at hlen
    have hrecovered := recoveredText_eq_of_length hlen
    rw [hrecovered] at h
    exact ⟨hrecovered, h⟩
  · rintro ⟨hrecovered, h⟩
    rwa [hrecovered]

end Opened

/-! ## One call -/

/-- A safe call, for a `malloc` that makes this choice and local arrays that hold this at first. The
array of a paste is zero. -/
def runSafely (choice : Option Addr) (tmp junk : Local) : SafeCall → ProcessM SafeResult
  | .copy text key => do
    let (res, size) ← copySafely (copyToClipboard choice) tmp junk text.letters
      (UInt32.ofNat text.letters.length) key.chars (UInt32.ofNat key.chars.length)
    return .copied res size
  | .paste id buffer key => do
    let (res, buffer) ← pasteSafely pasteFromClipboard zeroLocal junk (UInt32.ofNat id) buffer.val
      (UInt32.ofNat buffer.val.length) key.chars (UInt32.ofNat key.chars.length)
    return .pasted res buffer

/-- The process makes a safe call, and it returns. -/
def Safely (s : Process) (l : SafeCall × SafeResult) (s' : Process) : Prop :=
  ∃ choice tmp junk, runSafely choice tmp junk l.1 s = .ok (l.2, s')

section Calls

variable {s s' : Process} {ids : List (Fin bufMaxCount)} {i : Fin bufMaxCount} {text : Text}
  {key key' : Key} {buffer : Room} {choice : Option Addr} {tmp junk : Local} {r : SafeResult}

theorem isLetter_of_mem_enciphered {c : CChar} (hc : c ∈ enciphered key.chars text.letters) :
    isLetter c = true :=
  isLetter_of_mem_mapIdx text.isLetter hc

theorem length_sealedText_le (text : Text) (key : Key) :
    (sealedText text key).length ≤ maxSize := by
  have hle := length_encoded_runs_le (enciphered key.chars text.letters)
  rw [length_enciphered] at hle
  exact hle.trans text.length_le

theorem toNat_length_sealedText (text : Text) (key : Key) :
    (UInt32.ofNat (sealedText text key).length).toNat = (sealedText text key).length :=
  toNat_ofNat ((length_sealedText_le text key).trans_lt (by decide))

/-- The array that is copied from: the sealed text, and what the compressed bytes leave of the
enciphered ones and of what was in the array before. -/
def sealedArray (text : Text) (key : Key) (tmp : Local) : List CChar :=
  sealedText text key ++ (enciphered key.chars text.letters
    ++ tmp.val.drop text.letters.length).drop (sealedText text key).length

theorem toNat_sealedText_le (text : Text) (key : Key) (tmp : Local) :
    (UInt32.ofNat (sealedText text key).length).toNat ≤ (sealedArray text key tmp).length := by
  rw [toNat_length_sealedText, sealedArray, List.length_append]
  exact Nat.le_add_right _ _

theorem copySafely_text {τ : Type} (w : τ) (text : Text) (key : Key) (tmp junk : Local)
    (copyToClipboard : List CChar → UInt32 → StateT τ (Except Fault) Int32) :
    copySafely copyToClipboard tmp junk text.letters (UInt32.ofNat text.letters.length) key.chars
        (UInt32.ofNat key.chars.length) w
      = (do
        let res ← copyToClipboard (sealedArray text key tmp)
          (UInt32.ofNat (sealedText text key).length)
        return (res, UInt32.ofNat (sealedText text key).length)) w := by
  have hcipher := cipher_eq key.ne_nil key.length_le (text.length_le.trans_lt (by decide)) junk
    (tmp.val.drop text.letters.length) modeCipher
  rw [ciphered_eq key.isAlnum text.isLetter, if_neg (by decide)] at hcipher
  exact copySafely_of_cipher text.length_le hcipher (length_enciphered ..) copyToClipboard

theorem runSafely_copy_eq (s : Process) (text : Text) (key : Key) (choice : Option Addr)
    (tmp junk : Local) : runSafely choice tmp junk (.copy text key) s
      = (do
        let res ← copyToClipboard choice (sealedArray text key tmp)
          (UInt32.ofNat (sealedText text key).length)
        return SafeResult.copied res (UInt32.ofNat (sealedText text key).length)) s := by
  rw [runSafely, bind_apply, copySafely_text, bind_apply, bind_apply]
  cases copyToClipboard choice (sealedArray text key tmp)
    (UInt32.ofNat (sealedText text key).length) s <;> rfl

theorem SimInv.runSafely_copy_nil (h : SimInv s []) (text : Text) (key : Key)
    (choice : Option Addr) (tmp junk : Local) : runSafely choice tmp junk (.copy text key) s
      = .ok (.copied (-1) (UInt32.ofNat (sealedText text key).length), s) := by
  rw [runSafely_copy_eq,
    bind_ok (h.copyToClipboard_nil choice (toNat_sealedText_le text key tmp))]
  rfl

theorem SimInv.of_runSafely_copy (h : SimInv s (ids ++ [i]))
    (hrun : runSafely choice tmp junk (.copy text key) s = .ok (r, s')) :
    r = .copied (UInt32.ofNat i).toInt32 (UInt32.ofNat (sealedText text key).length) ∧
      SimInv s' ids ∧ texts s' = Function.update (texts s) i (some (sealedText text key)) := by
  rw [runSafely_copy_eq] at hrun
  obtain ⟨ret, hcopied, rfl⟩ := bind_pure_ok_iff.mp hrun
  obtain ⟨rfl, hI, htexts⟩ := h.of_copyToClipboard (toNat_sealedText_le text key tmp) hcopied
  rw [toNat_length_sealedText, sealedArray, List.take_left] at htexts
  exact ⟨rfl, hI, htexts⟩

theorem SimInv.exists_copy_sealedText (h : SimInv s ids) (text : Text) (key : Key)
    (hmem : s.heap.Succeeds choice) (tmp : Local) :
    ∃ r s', copyToClipboard choice (sealedArray text key tmp)
      (UInt32.ofNat (sealedText text key).length) s = .ok (r, s') := by
  have hlen := toNat_sealedText_le text key tmp
  rcases List.eq_nil_or_concat' ids with rfl | ⟨ids, i, rfl⟩
  · exact ⟨_, _, h.copyToClipboard_nil choice hlen⟩
  · rcases copyToClipboard_of_freeId hlen h.freeId h.buffers.null choice with
      ⟨a, heap, hcopy, -⟩ | ⟨hfail, -⟩
    · exact ⟨_, _, hcopy⟩
    · exact absurd hmem hfail

theorem SimInv.exists_runSafely_copy (h : SimInv s ids) (text : Text) (key : Key)
    (hmem : s.heap.Succeeds choice) (tmp junk : Local) :
    ∃ r s', runSafely choice tmp junk (.copy text key) s = .ok (r, s') := by
  obtain ⟨r, s', hcopy⟩ := h.exists_copy_sealedText text key hmem tmp
  exact ⟨_, s', (runSafely_copy_eq ..).trans (bind_ok hcopy _)⟩

theorem toNat_length_room (buffer : Room) :
    (UInt32.ofNat buffer.val.length).toNat = buffer.val.length :=
  toNat_ofNat (buffer.property.trans_lt (by decide))

theorem SimInv.runSafely_paste_refused (h : SimInv s ids)
    (hnot : ∀ bytes, texts s i = some bytes → buffer.val.length < bytes.length)
    (choice : Option Addr) (tmp junk : Local) (key : Key) :
    runSafely choice tmp junk (.paste i buffer key) s = .ok (.pasted (-1) buffer.val, s) := by
  have hpaste : pasteFromClipboard (UInt32.ofNat i) zeroLocal.val
      (UInt32.ofNat buffer.val.length) s
      = .ok ((-1, zeroLocal.val, UInt32.ofNat buffer.val.length), s) := by
    refine h.pasteFromClipboard_refused (Driver.toNat_ofNat_fin i) (fun hused ↦ ?_) _
    rw [toNat_length_room, Nat.not_le]
    exact hnot _ (texts_of_used hused)
  rw [runSafely, bind_ok (pasteSafely_of_ne_zero junk buffer.val key.chars
    (UInt32.ofNat key.chars.length) hpaste (by decide))]
  rfl

theorem SimInv.exists_paste_sealedText (h : SimInv s ids)
    (hstored : texts s i = some (sealedText text key))
    (hle : (sealedText text key).length ≤ buffer.val.length) :
    ∃ s', pasteFromClipboard (UInt32.ofNat i) zeroLocal.val (UInt32.ofNat buffer.val.length) s
        = .ok ((0, sealedText text key
          ++ List.replicate (maxSize - (sealedText text key).length) 0,
          UInt32.ofNat buffer.val.length), s') ∧
      SimInv s' ids ∧ texts s' = Function.update (texts s) i none := by
  have hused : (s.entries i).inUse = .used := by
    cases huse : (s.entries i).inUse with
    | empty => rw [texts_eq_none_iff.mpr huse] at hstored; cases hstored
    | used => rfl
  have hcontents : s.heap.contents (s.entries i).buffer = sealedText text key := by
    rw [texts_of_used hused] at hstored
    exact Option.some_inj.mp hstored
  have hfits : (s.heap.contents (s.entries i).buffer).length
      ≤ (UInt32.ofNat buffer.val.length).toNat := by rwa [hcontents, toNat_length_room]
  obtain ⟨s', hpaste, hrest⟩ := h.exists_pasteFromClipboard (Driver.toNat_ofNat_fin i) hused hfits
    zeroLocal.val (by rw [hcontents, zeroLocal.property]; exact length_sealedText_le text key)
  have hzero : zeroLocal.val.drop (sealedText text key).length
      = List.replicate (maxSize - (sealedText text key).length) 0 := List.drop_replicate ..
  rw [hcontents, hzero] at hpaste
  exact ⟨s', hpaste, hrest⟩

theorem SimInv.exists_paste_array (h : SimInv s ids) (id : Fin bufMaxCount) (buffer : Room)
    (hcell : ∀ bytes, texts s id = some bytes →
      ∃ text key, bytes = sealedText text key) :
    ∃ r left n s', pasteFromClipboard (UInt32.ofNat id) zeroLocal.val
      (UInt32.ofNat buffer.val.length) s = .ok ((r, left, n), s') ∧ left.length = maxSize := by
  by_cases hle : ∃ text key, texts s id = some (sealedText text key) ∧
    (sealedText text key).length ≤ buffer.val.length
  · obtain ⟨text, key, hstored, hle⟩ := hle
    obtain ⟨s', hpaste, -⟩ := h.exists_paste_sealedText hstored hle
    refine ⟨_, _, _, s', hpaste, ?_⟩
    rw [List.length_append, List.length_replicate,
      Nat.add_sub_cancel' (length_sealedText_le text key)]
  · refine ⟨_, _, _, s, h.pasteFromClipboard_refused (Driver.toNat_ofNat_fin id) (fun hused ↦ ?_) _,
      zeroLocal.property⟩
    have hstored := texts_of_used hused
    obtain ⟨text, key, hbytes⟩ := hcell _ hstored
    rw [hbytes] at hstored ⊢
    rw [toNat_length_room]
    exact fun hfits ↦ hle ⟨text, key, hstored, hfits⟩

theorem SimInv.exists_runSafely_paste (h : SimInv s ids)
    (hstored : texts s i = some (sealedText text key))
    (hle : (sealedText text key).length ≤ buffer.val.length)
    (hle' : (openedText key' text key).length ≤ buffer.val.length)
    (choice : Option Addr) (tmp junk : Local) :
    ∃ s', runSafely choice tmp junk (.paste i buffer key') s
        = .ok (.pasted 0 (openedText key' text key ++
          List.replicate (buffer.val.length - (openedText key' text key).length) 0), s') ∧
      SimInv s' ids ∧ texts s' = Function.update (texts s) i none := by
  obtain ⟨s', hpaste, hrest⟩ := h.exists_paste_sealedText hstored hle
  have hrec : ∀ c ∈ recoveredText (enciphered key.chars text.letters), isLetter c = true :=
    fun c hc ↦ isLetter_of_mem_enciphered (mem_of_mem_recoveredText hc)
  have hsafely := pasteSafely_of_room key'.ne_nil key'.length_le
    (fun c hc ↦ isDigit_of_isLetter (isLetter_of_mem_enciphered hc))
    (fun c hc ↦ ne_zero_of_isLetter (isLetter_of_mem_enciphered hc)) hle
    (by rwa [openedText, length_deciphered] at hle') buffer.property (Nat.le_refl _) junk hpaste
  rw [ciphered_eq key'.isAlnum hrec, if_pos rfl, ← openedText, List.drop_length,
    List.append_nil] at hsafely
  refine ⟨s', ?_, hrest⟩
  rw [runSafely, bind_ok hsafely, openedText, length_deciphered]
  rfl

/-- A paste of what fits before but not after. -/
theorem SimInv.runSafely_paste_overrun (h : SimInv s ids)
    (hstored : texts s i = some (sealedText text key))
    (hle : (sealedText text key).length ≤ buffer.val.length)
    (hlt : buffer.val.length < (openedText key' text key).length)
    (choice : Option Addr) (tmp junk : Local) :
    runSafely choice tmp junk (.paste i buffer key') s = .error .pointer := by
  obtain ⟨s', hpaste, -⟩ := h.exists_paste_sealedText hstored hle
  have hzeros : ∀ c ∈ sealedText text key, c ≠ 0 := forall_encoded_ne_zero fun c hc ↦
    ne_zero_of_isLetter (isLetter_of_mem_enciphered hc)
  have hdecoded : decoded (sealedText text key)
      = recoveredText (enciphered key.chars text.letters) := decoded_encoded_runs fun c hc ↦
    isDigit_of_isLetter (isLetter_of_mem_enciphered hc)
  have hlength : maxSize = (sealedText text key
      ++ List.replicate (maxSize - (sealedText text key).length) (0 : CChar)).length := by
    rw [List.length_append, List.length_replicate,
      Nat.add_sub_cancel' (length_sealedText_le text key)]
  have hover : pasteSafely pasteFromClipboard zeroLocal junk (UInt32.ofNat i) buffer.val
      (UInt32.ofNat buffer.val.length) key'.chars (UInt32.ofNat key'.chars.length) s
      = .error .pointer := by
    refine pasteSafely_of_overrun hpaste (Or.inl ?_) (toNat_length_room buffer).le
      (buffer.property.trans_lt (by decide)) ?_
    · rw [toNat_length_room, ← hlength]
      exact buffer.property
    · rw [toNat_length_room, scan_append_zeros hzeros hle, hdecoded]
      rwa [openedText, length_deciphered] at hlt
  rw [runSafely, bind_apply, hover]

end Calls

/-! ## Runs -/

section Runs

variable {s s' : Process} {m m' : Vault} {l : SafeCall × SafeResult} {i : Fin bufMaxCount}

/-- The simulated clipboard keeps what is in the vault. The ids on its stack are the unused ones, in
order. -/
structure Keeps (s : Process) (m : Vault) : Prop where
  ids : ∃ ids, SimInv s ids ∧ ids.Pairwise (· < ·) ∧ ∀ i, m i = .unused ↔ i ∈ ids
  texts : ∀ i, texts s i = (m i).bytes

theorem keeps_initial {addr : Addr} (ha : Stack.Fits addr) :
    Keeps (initial addr) fun _ ↦ .unused where
  ids := ⟨_, simInv_initial ha, List.pairwise_lt_finRange _, by simp⟩
  texts _ := rfl

theorem Cell.exists_of_bytes {c : Cell} {bytes : List CChar} (hc : c.bytes = some bytes) :
    ∃ text key, c = .stored text key ∧ bytes = sealedText text key := by
  cases c with
  | stored text key => exact ⟨text, key, rfl, (Option.some_inj.mp hc).symm⟩
  | unused => cases hc
  | gone => cases hc

theorem Keeps.texts_of_stored (h : Keeps s m) {text : Text} {key : Key}
    (hcell : m i = .stored text key) : Simulated.texts s i = some (sealedText text key) := by
  rw [h.texts, hcell]
  rfl

theorem Keeps.lt_of_texts (h : Keeps s m) {buffer : Room}
    (hnot : ¬∃ text key, m i = .stored text key ∧
      (sealedText text key).length ≤ buffer.val.length) {bytes : List CChar}
    (hbytes : Simulated.texts s i = some bytes) : buffer.val.length < bytes.length := by
  obtain ⟨text, key, hcell, rfl⟩ := Cell.exists_of_bytes ((h.texts i).symm.trans hbytes)
  exact Nat.not_le.mp fun hle ↦ hnot ⟨text, key, hcell, hle⟩

theorem Keeps.update (h : Keeps s m) {ids : List (Fin bufMaxCount)} (hI : SimInv s' ids)
    (hlt : ids.Pairwise (· < ·)) {c : Cell} (hc : c ≠ .unused)
    (hids : ∀ j, j ∈ ids ↔ m j = .unused ∧ j ≠ i)
    (htexts : Simulated.texts s' = Function.update (Simulated.texts s) i c.bytes) :
    Keeps s' (Function.update m i c) where
  ids := by
    refine ⟨ids, hI, hlt, fun j ↦ ?_⟩
    rw [hids]
    by_cases hji : j = i
    · subst hji
      simp [hc]
    · simp [hji]
  texts j := by
    rw [htexts, funext h.texts]
    exact (Function.apply_update (fun _ ↦ Cell.bytes) m i c j).symm

/-- **One call** on the simulated clipboard is one on the vault. -/
theorem Keeps.step (h : Keeps s m) (hcall : Safely s l s') :
    ∃ m', VaultStep m l m' ∧ Keeps s' m' := by
  obtain ⟨c, r⟩ := l
  obtain ⟨choice, tmp, junk, hrun⟩ := hcall
  obtain ⟨ids, hI, hlt, hids⟩ := h.ids
  cases c with
  | copy text key =>
    rcases List.eq_nil_or_concat' ids with rfl | ⟨ids, i, rfl⟩
    · obtain ⟨rfl, rfl⟩ := of_pure_ok ((hI.runSafely_copy_nil text key choice tmp junk).symm.trans
        hrun)
      exact ⟨m, .full fun i hi ↦ List.not_mem_nil ((hids i).mp hi), h⟩
    · -- the id on top is the last one, and so the greatest
      obtain ⟨rfl, hI', htexts⟩ := hI.of_runSafely_copy hrun
      obtain ⟨hlt', -, hlast⟩ := List.pairwise_append.mp hlt
      have hbefore : ∀ j ∈ ids, j < i := fun j hj ↦ hlast j hj i List.mem_cons_self
      have hmem : ∀ j, m j = .unused ↔ j ∈ ids ∨ j = i := fun j ↦ by rw [hids]; simp
      refine ⟨_, .copied ⟨(hmem i).mpr (Or.inr rfl), fun j hj ↦ ?_⟩,
        h.update hI' hlt' (by simp) (fun j ↦ ?_) htexts⟩
      · rcases (hmem j).mp hj with hj | rfl
        · exact (hbefore j hj).le
        · exact le_rfl
      · rw [hmem]
        exact ⟨fun hj ↦ ⟨Or.inl hj, (hbefore j hj).ne⟩, fun hj ↦ hj.1.resolve_right hj.2⟩
  | paste i buffer key' =>
    by_cases hfits : ∃ text key, m i = .stored text key ∧
      (sealedText text key).length ≤ buffer.val.length
    · obtain ⟨text, key, hcell, hle⟩ := hfits
      have hstored := h.texts_of_stored hcell
      -- a paste that returns has not run over its buffer
      have hle' : (openedText key' text key).length ≤ buffer.val.length := by
        by_contra hnot
        have hover := hI.runSafely_paste_overrun hstored hle (Nat.not_le.mp hnot) choice tmp junk
        rw [hover] at hrun
        cases hrun
      obtain ⟨t, hpaste, hI', htexts⟩ := hI.exists_runSafely_paste hstored hle hle' choice tmp junk
      obtain ⟨rfl, rfl⟩ := of_pure_ok (hpaste.symm.trans hrun)
      refine ⟨_, .pasted hcell hle hle', h.update hI' hlt (by simp) (fun j ↦ ?_) htexts⟩
      rw [← hids]
      refine ⟨fun hj ↦ ⟨hj, ?_⟩, And.left⟩
      rintro rfl
      rw [hcell] at hj
      cases hj
    · have hpaste := hI.runSafely_paste_refused (fun _ ↦ h.lt_of_texts hfits) choice tmp junk key'
      obtain ⟨rfl, rfl⟩ := of_pure_ok (hpaste.symm.trans hrun)
      exact ⟨m, .refused fun text key hcell ↦ h.lt_of_texts hfits (h.texts_of_stored hcell), h⟩

/-- A paste that does not run over returns, with a buffer as long as before. -/
theorem Keeps.exists_runSafely_paste (h : Keeps s m) {buffer : Room} {key' : Key}
    (hroom : ¬Overruns m (.paste i buffer key')) (choice : Option Addr) (tmp junk : Local) :
    ∃ res left s', left.length = buffer.val.length ∧
      runSafely choice tmp junk (.paste i buffer key') s = .ok (.pasted res left, s') := by
  obtain ⟨ids, hI, -, -⟩ := h.ids
  by_cases hle : ∃ text key, m i = .stored text key ∧
    (sealedText text key).length ≤ buffer.val.length
  · obtain ⟨text, key, hcell, hle⟩ := hle
    have hle' := Nat.not_lt.mp fun hlt ↦ hroom ⟨text, key, hcell, hle, hlt⟩
    obtain ⟨t, hpaste, -⟩ := hI.exists_runSafely_paste (h.texts_of_stored hcell) hle hle' choice
      tmp junk
    refine ⟨_, _, t, ?_, hpaste⟩
    rw [List.length_append, List.length_replicate, Nat.add_sub_cancel' hle']
  · exact ⟨_, _, _, rfl, hI.runSafely_paste_refused (fun _ ↦ h.lt_of_texts hle) choice tmp junk
      key'⟩

/-- With memory for the copies, all calls return but those that run over. -/
theorem Keeps.returns_iff (h : Keeps s m) (c : SafeCall) {choice : Option Addr} (tmp junk : Local)
    (hmem : ∀ text key, c = .copy text key → s.heap.Succeeds choice) :
    (∃ r s', runSafely choice tmp junk c s = .ok (r, s')) ↔ ¬Overruns m c := by
  obtain ⟨ids, hI, -, -⟩ := h.ids
  cases c with
  | copy text key =>
    exact iff_of_true (hI.exists_runSafely_copy text key (hmem text key rfl) tmp junk) not_false
  | paste i buffer key' =>
    constructor
    · rintro ⟨r, s', hrun⟩ ⟨text, key, hcell, hle, hlt⟩
      rw [hI.runSafely_paste_overrun (h.texts_of_stored hcell) hle hlt choice tmp junk] at hrun
      cases hrun
    · intro hroom
      obtain ⟨res, left, s', -, hpaste⟩ := h.exists_runSafely_paste hroom choice tmp junk
      exact ⟨_, s', hpaste⟩

variable {addr : Addr} {h : List (Event Process (SafeCall × SafeResult))}

theorem exists_vault (ha : Stack.Fits addr) (hrun : Run Safely (initial addr) h s) :
    ∃ h' m, Run VaultStep (fun _ ↦ .unused) h' m ∧ h'.map Event.label = h.map Event.label ∧
      Keeps s m := by
  obtain ⟨h', m, hrun', hlabels, hkeeps⟩ := Run.simulate_traces (some ∘ Event.label)
    (some ∘ Event.label) (R := Keeps) (Q := fun _ ↦ True) (keeps_initial ha) (fun e m hm _ hs ↦ by
      obtain ⟨m', hstep, hm'⟩ := hm.step hs
      exact ⟨_, m', Run.nil.snoc hstep, rfl, hm'⟩) hrun fun _ _ ↦ trivial
  simp only [List.filterMap_eq_map] at hlabels
  exact ⟨h', m, hrun', hlabels, hkeeps⟩

theorem simInv_initial_concat (ha : Stack.Fits addr) :
    SimInv (initial addr) ((List.finRange 99).map Fin.castSucc ++ [99]) := by
  have hids : List.finRange bufMaxCount = (List.finRange 99).map Fin.castSucc ++ [99] :=
    List.finRange_succ_last
  rw [← hids]
  exact simInv_initial ha

theorem exists_run_copied_pasted (text : Text) (key key' : Key) (buffer : Room)
    (hle : (sealedText text key).length ≤ buffer.val.length)
    (hle' : (openedText key' text key).length ≤ buffer.val.length) :
    ∃ h s, Run Safely (initial 4096) h s ∧ h.map Event.label = [(.copy text key, .copied
      (UInt32.ofNat (99 : Fin bufMaxCount)).toInt32 (UInt32.ofNat (sealedText text key).length)),
      (.paste 99 buffer key', .pasted 0 (openedText key' text key ++
        List.replicate (buffer.val.length - (openedText key' text key).length) 0))] := by
  have hI := simInv_initial_concat (show Stack.Fits 4096 by decide)
  obtain ⟨r, s, hcopy⟩ := hI.exists_runSafely_copy text key
    (show (initial 4096).heap.Succeeds (some 8) from ⟨8, rfl, by decide, rfl⟩) zeroLocal zeroLocal
  obtain ⟨rfl, hI', htexts⟩ := hI.of_runSafely_copy hcopy
  obtain ⟨s', hpaste, -⟩ := hI'.exists_runSafely_paste (i := 99)
    (by rw [htexts]; exact Function.update_self ..) hle hle' none zeroLocal zeroLocal
  exact ⟨_, s', (Run.nil.snoc ⟨some 8, zeroLocal, zeroLocal, hcopy⟩).snoc
    ⟨none, zeroLocal, zeroLocal, hpaste⟩, rfl⟩

/-- **The vault.** Every sequence of safe calls that return is one of the vault, with the same
results, and in the end the table has what the vault has. With memory for the copies, the only calls
that do not return are the pastes that run over. -/
theorem vault_of_run (ha : Stack.Fits addr) (hrun : Run Safely (initial addr) h s) :
    ∃ h' m, Run VaultStep (fun _ ↦ .unused) h' m ∧ h'.map Event.label = h.map Event.label ∧
      (∀ i, texts s i = (m i).bytes) ∧
      ∀ (c : SafeCall) (choice : Option Addr) (tmp junk : Local),
        (∀ text key, c = .copy text key → s.heap.Succeeds choice) →
        ((∃ r s', runSafely choice tmp junk c s = .ok (r, s')) ↔ ¬Overruns m c) := by
  obtain ⟨h', m, hrun', hlabels, hkeeps⟩ := exists_vault ha hrun
  exact ⟨h', m, hrun', hlabels, hkeeps.texts, fun c _ tmp junk hmem ↦
    hkeeps.returns_iff c tmp junk hmem⟩

def textAb : Text := ⟨[97, 98], by decide +kernel, by decide⟩

def keyC : Key := ⟨[99], by decide, by decide +kernel, by decide⟩

def keyTwo : Key := ⟨[50], by decide, by decide +kernel, by decide⟩

def roomTwo : Room := ⟨[0, 0], by decide⟩

theorem exists_run_ab : ∃ h s, Run Safely (initial 4096) h s ∧
    h.map Event.label = [(.copy textAb keyC, .copied 99 2), (.paste 99 roomTwo keyTwo,
      .pasted 0 [97, 98])] := by
  have hsealed : sealedText textAb keyC = [99, 100] := by decide +kernel
  have hopened : openedText keyTwo textAb keyC = [97, 98] := by decide +kernel
  obtain ⟨h, s, hrun, hlabels⟩ := exists_run_copied_pasted textAb keyC keyTwo roomTwo
    (by rw [hsealed]; decide) (by rw [hopened]; decide)
  rw [hsealed, hopened] at hlabels
  exact ⟨h, s, hrun, hlabels⟩

theorem vault_of_run_ab : ∃ h s, Run Safely (initial 4096) h s ∧
    h.map Event.label = [(.copy textAb keyC, .copied 99 2), (.paste 99 roomTwo keyTwo,
      .pasted 0 [97, 98])] ∧
    ∃ h' m, Run VaultStep (fun _ ↦ .unused) h' m ∧ h'.map Event.label = h.map Event.label := by
  obtain ⟨h, s, hrun, hlabels⟩ := exists_run_ab
  obtain ⟨h', m, hrun', hlabels', -⟩ := vault_of_run (by decide) hrun
  exact ⟨h, s, hrun, hlabels, h', m, hrun', hlabels'⟩

end Runs

/-! ## What a run has put in and taken out -/

section Record

variable {m m' : Vault} {l : SafeCall × SafeResult} {ls : List (SafeCall × SafeResult)}
  {i j : Fin bufMaxCount} {text : Text} {key key' : Key} {buffer : Room}

def Gives (i : Fin bufMaxCount) (l : SafeCall × SafeResult) : Prop :=
  ∃ text key size, l = (.copy text key, .copied (UInt32.ofNat i).toInt32 size)

def Takes (i : Fin bufMaxCount) (l : SafeCall × SafeResult) : Prop :=
  ∃ buffer key left, l = (.paste i buffer key, .pasted 0 left)

theorem gives_iff {size : UInt32} :
    Gives j (.copy text key, .copied (UInt32.ofNat i).toInt32 size) ↔ j = i := by
  constructor
  · rintro ⟨text', key', size', h⟩
    simp only [Prod.mk.injEq, SafeResult.copied.injEq] at h
    have hid := congrArg Int32.toUInt32 h.2.1
    rw [UInt32.toUInt32_toInt32, UInt32.toUInt32_toInt32] at hid
    exact (Driver.ofNat_fin_injective hid).symm
  · rintro rfl
    exact ⟨_, _, _, rfl⟩

theorem not_gives_full {size : UInt32} : ¬Gives j (.copy text key, .copied (-1) size) := by
  rintro ⟨text', key', size', h⟩
  simp only [Prod.mk.injEq, SafeResult.copied.injEq] at h
  have hid := congrArg Int32.toUInt32 h.2.1
  rw [UInt32.toUInt32_toInt32] at hid
  exact Driver.toNat_neg_one_ne j hid

theorem not_gives_paste {r : SafeResult} : ¬Gives j (.paste i buffer key, r) := by
  rintro ⟨text', key', size', h⟩
  simp at h

theorem takes_iff {left : List CChar} : Takes j (.paste i buffer key, .pasted 0 left) ↔ j = i := by
  constructor
  · rintro ⟨buffer', key', left', h⟩
    simp only [Prod.mk.injEq, SafeCall.paste.injEq] at h
    exact h.1.1.symm
  · rintro rfl
    exact ⟨_, _, _, rfl⟩

theorem not_takes_refused {left : List CChar} :
    ¬Takes j (.paste i buffer key, .pasted (-1) left) := by
  rintro ⟨buffer', key', left', h⟩
  simp at h

theorem not_takes_copy {r : SafeResult} : ¬Takes j (.copy text key, r) := by
  rintro ⟨buffer', key', left', h⟩
  simp at h

theorem VaultStep.cell (h : VaultStep m l m') (j : Fin bufMaxCount) :
    (m' j = m j ∧ ¬Gives j l ∧ ¬Takes j l) ∨
    (∃ text key, m j = .unused ∧ m' j = .stored text key ∧ l = (.copy text key,
      .copied (UInt32.ofNat j).toInt32 (UInt32.ofNat (sealedText text key).length))) ∨
    ∃ text key, m j = .stored text key ∧ m' j = .gone ∧ ¬Gives j l := by
  cases h with
  | @copied text key i unused =>
    by_cases hji : j = i
    · subst hji
      exact Or.inr (Or.inl ⟨text, key, unused.1, Function.update_self .., rfl⟩)
    · exact Or.inl ⟨Function.update_of_ne hji .., gives_iff.not.mpr hji, not_takes_copy⟩
  | full => exact Or.inl ⟨rfl, not_gives_full, not_takes_copy⟩
  | @pasted text key key' i buffer stored =>
    by_cases hji : j = i
    · subst hji
      exact Or.inr (Or.inr ⟨text, key, stored, Function.update_self .., not_gives_paste⟩)
    · exact Or.inl ⟨Function.update_of_ne hji .., not_gives_paste, takes_iff.not.mpr hji⟩
  | refused => exact Or.inl ⟨rfl, not_gives_paste, not_takes_refused⟩

/-- What has been put in and taken out, in a vault that is what has come of it. -/
structure Recorded (ls : List (SafeCall × SafeResult)) (m : Vault) : Prop where
  unused : ∀ i, m i = .unused → ∀ l ∈ ls, ¬Gives i l ∧ ¬Takes i l
  given : ∀ i text key, m i = .stored text key → (.copy text key,
    .copied (UInt32.ofNat i).toInt32 (UInt32.ofNat (sealedText text key).length)) ∈ ls
  stored : ∀ i text key, m i = .stored text key → ∀ l ∈ ls, ¬Takes i l
  once : ls.Pairwise fun l l' ↦ ∀ i, ¬(Gives i l ∧ Gives i l') ∧ ¬(Takes i l ∧ Takes i l')

theorem Recorded.step (h : Recorded ls m) (hs : VaultStep m l m') :
    Recorded (ls ++ [l]) m' where
  unused j hj l' hl' := by
    rcases hs.cell j with ⟨hsame, hnot⟩ | ⟨text, key, -, hcell, -⟩ | ⟨text, key, -, hcell, -⟩
    · rcases List.mem_append.mp hl' with hl' | hl'
      · exact h.unused j (hsame ▸ hj) l' hl'
      · rwa [List.mem_singleton.mp hl']
    · rw [hcell] at hj; cases hj
    · rw [hcell] at hj; cases hj
  given j text key hj := by
    rcases hs.cell j with ⟨hsame, -⟩ | ⟨text', key', -, hcell, rfl⟩ | ⟨text', key', -, hcell, -⟩
    · exact List.mem_append_left _ (h.given j text key (hsame ▸ hj))
    · rw [hcell, Cell.stored.injEq] at hj
      obtain ⟨rfl, rfl⟩ := hj
      exact List.mem_append_right _ List.mem_cons_self
    · rw [hcell] at hj; cases hj
  stored j text key hj l' hl' := by
    rcases hs.cell j with ⟨hsame, hnot⟩ | ⟨text', key', hunused, -, rfl⟩ | ⟨_, _, -, hcell, -⟩
    · rcases List.mem_append.mp hl' with hl' | hl'
      · exact h.stored j text key (hsame ▸ hj) l' hl'
      · rw [List.mem_singleton.mp hl']
        exact hnot.2
    · rcases List.mem_append.mp hl' with hl' | hl'
      · exact (h.unused j hunused l' hl').2
      · rw [List.mem_singleton.mp hl']
        exact not_takes_copy
    · rw [hcell] at hj; cases hj
  once := by
    refine List.pairwise_append.mpr ⟨h.once, List.pairwise_singleton _ _, ?_⟩
    intro l' hl' l'' hl'' j
    obtain rfl := List.mem_singleton.mp hl''
    -- what is put in was not there, and what is taken out was not taken before
    rcases hs.cell j with ⟨-, hnot⟩ | ⟨text, key, hunused, -, -⟩ | ⟨text, key, hstored, -, hnot⟩
    · exact ⟨fun hboth ↦ hnot.1 hboth.2, fun hboth ↦ hnot.2 hboth.2⟩
    · obtain ⟨hgives, htakes⟩ := h.unused j hunused l' hl'
      exact ⟨fun hboth ↦ hgives hboth.1, fun hboth ↦ htakes hboth.1⟩
    · exact ⟨fun hboth ↦ hnot hboth.2, fun hboth ↦ h.stored j text key hstored l' hl' hboth.1⟩

theorem recorded_nil : Recorded [] fun _ ↦ .unused where
  unused _ _ _ hl := absurd hl List.not_mem_nil
  given _ _ _ hcell := by cases hcell
  stored _ _ _ hcell := by cases hcell
  once := .nil

theorem recorded_of_run {h : List (Event Vault (SafeCall × SafeResult))}
    (hrun : Run VaultStep (fun _ ↦ .unused) h m) : Recorded (h.map Event.label) m := by
  induction hrun with
  | nil => exact recorded_nil
  | snoc _ hs ih =>
    rw [List.map_append, List.map_singleton]
    exact ih.step hs

theorem VaultStep.of_pasted {left : List CChar}
    (h : VaultStep m (.paste i buffer key', .pasted 0 left) m') :
    ∃ text key, m i = .stored text key ∧ left = openedText key' text key ++
      List.replicate (buffer.val.length - (openedText key' text key).length) 0 := by
  cases h with
  | pasted stored => exact ⟨_, _, stored, rfl⟩

/-- **What comes out of the clipboard.** In any sequence of safe calls, no two copies give the same
id and no two pastes take it. What a paste takes has been copied before under its id, and comes out
as its letters do by these two keys, with zeros up to the end of the buffer. It is what went in
exactly if the keys shift all of its letters alike and the first one leaves no run of 26. -/
theorem opened_of_run {addr : Addr} {h : List (Event Process (SafeCall × SafeResult))} {s : Process}
    (ha : Stack.Fits addr) (hrun : Run Safely (initial addr) h s) :
    ((h.map Event.label).Pairwise fun l l' ↦
      ∀ i, ¬(Gives i l ∧ Gives i l') ∧ ¬(Takes i l ∧ Takes i l')) ∧
    ∀ (j : ℕ) (i : Fin bufMaxCount) (buffer : Room) (key' : Key) (left : List CChar),
      (h.map Event.label)[j]? = some (.paste i buffer key', .pasted 0 left) →
      ∃ text key, (.copy text key, .copied (UInt32.ofNat i).toInt32
          (UInt32.ofNat (sealedText text key).length)) ∈ (h.map Event.label).take j ∧
        left = openedText key' text key ++
          List.replicate (buffer.val.length - (openedText key' text key).length) 0 ∧
        (openedText key' text key = text.letters ↔ ¬LevelsOut key.chars text.letters ∧
          ∀ k < text.letters.length, keyShift key.chars k = keyShift key'.chars k) := by
  obtain ⟨h', m, hrun', hlabels, -⟩ := exists_vault ha hrun
  rw [← hlabels]
  refine ⟨(recorded_of_run hrun').once, fun j i buffer key' left hj ↦ ?_⟩
  rw [List.getElem?_map, Option.map_eq_some_iff] at hj
  obtain ⟨e, hj, hlabel⟩ := hj
  obtain ⟨hbefore, hstep⟩ := hrun'.event hj
  rw [hlabel] at hstep
  obtain ⟨text, key, hcell, hleft⟩ := hstep.of_pasted
  refine ⟨text, key, ?_, hleft, openedText_eq_iff⟩
  rw [← List.map_take]
  exact (recorded_of_run hbefore).given i text key hcell

theorem opened_of_run_ab : ∃ h s, Run Safely (initial 4096) h s ∧
    h.map Event.label = [(.copy textAb keyC, .copied 99 2), (.paste 99 roomTwo keyTwo,
      .pasted 0 [97, 98])] ∧
    ∃ text key, (.copy text key, .copied 99 (UInt32.ofNat (sealedText text key).length))
        ∈ (h.map Event.label).take 1 ∧
      [97, 98] = openedText keyTwo text key ++
        List.replicate (2 - (openedText keyTwo text key).length) 0 := by
  obtain ⟨h, s, hrun, hlabels⟩ := exists_run_ab
  obtain ⟨text, key, hmem, hleft, -⟩ := (opened_of_run (by decide) hrun).2 1 99 roomTwo keyTwo _
    (by rw [hlabels]; rfl)
  exact ⟨h, s, hrun, hlabels, text, key, hmem, hleft⟩

end Record

end Simulated

end MinixClipboard
