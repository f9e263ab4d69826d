import MinixClipboard.Codec.DecodedSize
import MinixClipboard.Codec.StaleBytes
import MinixClipboard.Simulated.Agreement

/-!
# What a safe paste may touch, and what it may depend on

`paste_safely` on the simulated clipboard, in any state of it. The clipboard compares the length of
the caller's buffer with the length of the entry, which is what it copies to the array of
`paste_safely`. It is not the length of the text, which is longer where there are runs
(`staysInside_iff`). And nobody says how long the entry was, so that an entry without a zero byte is
read on with what the array held before, if it is shorter than the buffer (`sameResults_iff`).
-/

namespace MinixClipboard

namespace Simulated

open Fallible Codec

variable {t t' : Process} {i : Fin bufMaxCount} {addr : Addr}

/-! ## The states of the clipboard -/

/-- A call of the simulated library that returns, for any `malloc` and any memory. -/
def Steps (t : Process) (l : LibCall × SimResult) (t' : Process) : Prop :=
  ∃ choice memory, run choice memory l.1 t = .ok (l.2, t')

theorem pasteFromClipboard_of_index {id : UInt32} (hid : bufMaxCount ≤ id.toNat)
    (buffer : List CChar) (bufferLen : UInt32) (t : Process) :
    pasteFromClipboard id buffer bufferLen t = .error (.index id.toNat) := by
  have hindex : index id.toNat t = .error (.index id.toNat) := by
    rw [index, dif_neg (by rw [bufMaxCount_eq] at *; omega)]
    rfl
  have hbusy : busy id.toNat t = .error (.index id.toNat) := bind_error (bind_error hindex _) _
  have hread : clipboardRead ⟨buffer, bufferLen, id⟩ t = .error (.index id.toNat) :=
    bind_error hbusy _
  exact bind_error hread _

theorem simInv_of_steps {ids : List (Fin bufMaxCount)} {l : LibCall × SimResult}
    (hI : SimInv t ids) (h : Steps t l t') : ∃ ids', SimInv t' ids' := by
  obtain ⟨choice, memory, h⟩ := h
  obtain ⟨c, r⟩ := l
  cases c with
  | copy buffer bufferLen =>
    rcases List.eq_nil_or_concat' ids with rfl | ⟨ids, i, rfl⟩
    · obtain ⟨-, rfl⟩ := of_pure_ok ((hI.run_copy_nil choice memory buffer bufferLen).symm.trans h)
      exact ⟨[], hI⟩
    · exact ⟨ids, (hI.run_copy h).2.1⟩
  | paste id bufferLen =>
    rcases Nat.lt_or_ge id.toNat bufMaxCount with hid | hid
    · by_cases hpaste : (t.entries ⟨id.toNat, hid⟩).inUse = .used ∧
          (t.heap.contents (t.entries ⟨id.toNat, hid⟩).buffer).length ≤ bufferLen.toNat
      · obtain ⟨t'', hrun, hI', -⟩ := hI.run_paste (i := ⟨id.toNat, hid⟩) rfl hpaste.1 hpaste.2
          choice memory
        obtain ⟨-, rfl⟩ := of_pure_ok (hrun.symm.trans h)
        exact ⟨ids, hI'⟩
      · have hrun := hI.run_paste_refused (i := ⟨id.toNat, hid⟩) rfl
          (fun hused hle ↦ hpaste ⟨hused, hle⟩) choice memory
        obtain ⟨-, rfl⟩ := of_pure_ok (hrun.symm.trans h)
        exact ⟨ids, hI⟩
    · have hpaste := pasteFromClipboard_of_index hid (memory.bytes bufferLen.toNat) bufferLen t
      rw [run, bind_error hpaste] at h
      cases h

theorem buffers_of_reachable (ha : Stack.Fits addr) (hs : Reachable Steps (initial addr) t) :
    Driver.Buffers (asDriver t) := by
  obtain ⟨ids, hI⟩ := hs.invariant (P := fun t ↦ ∃ ids, SimInv t ids) ⟨_, simInv_initial ha⟩
    fun _ _ _ ⟨_, hI⟩ h ↦ simInv_of_steps hI h
  exact hI.buffers

/-- The bytes of an entry. -/
def bytesOf (t : Process) (i : Fin bufMaxCount) : List CChar := t.heap.contents (t.entries i).buffer

theorem exists_stored (bytes : List CChar) (hlt : bytes.length < 2 ^ 32) :
    ∃ t, Reachable Steps (initial 4096) t ∧ (t.entries 99).inUse = .used ∧
      (t.entries 99).bufferLen.toNat = bytes.length ∧ bytesOf t 99 = bytes ∧
      ∀ j, j ≠ 99 → (t.entries j).inUse = .empty := by
  obtain ⟨memory, hmemory⟩ : ∃ memory : Memory, memory.bytes bytes.length = bytes :=
    ⟨Memory.write (fun _ ↦ 0) bytes, Memory.bytes_write _ _⟩
  obtain ⟨bufferLen, hbufferLen⟩ : ∃ bufferLen : UInt32, bufferLen.toNat = bytes.length :=
    ⟨UInt32.ofNat bytes.length, toNat_ofNat hlt⟩
  have hfree : FreeId (initial 4096) 99 := freeId_initial (by decide)
  rcases copyToClipboard_of_freeId
    (show bufferLen.toNat ≤ (memory.bytes bufferLen.toNat).length by simp) hfree rfl (some 8) with
      ⟨a, heap, hcopy, hplaces, -⟩ | ⟨hfail, -⟩
  · rw [hbufferLen, hmemory, List.take_length] at hplaces
    have hsteps : Steps (initial 4096) (.copy memory bufferLen, .copied (UInt32.ofNat 99).toInt32)
        _ := ⟨some 8, memory, by rw [run, bind_ok hcopy]; rfl⟩
    have hentry : (stored (popped (initial 4096)) 99 (copyMsg (memory.bytes bufferLen.toNat)
        bufferLen) a heap).entries 99 = ⟨bufferLen, a,
          (copyMsg (memory.bytes bufferLen.toNat) bufferLen).decompressedLen, .used⟩ := by
      simp only [stored, update, withHeap, Function.update_self]
      rfl
    refine ⟨_, Reachable.refl.next hsteps, ?_, ?_, ?_, fun j hj ↦ ?_⟩
    · rw [hentry]
    · rw [hentry, hbufferLen]
    · rw [bytesOf, hentry]
      exact hplaces.contents
    · simp only [stored, withHeap, update, Function.update_of_ne hj]
      rfl
  · exact absurd ⟨8, rfl, by decide, rfl⟩ hfail

/-! ## One paste -/

/-- The bytes of an entry up to its first zero byte. -/
def textOf (t : Process) (i : Fin bufMaxCount) : List CChar := (bytesOf t i).takeWhile (· ≠ 0)

/-- The array of `paste_safely` once the entry is copied to it. -/
def arrived (t : Process) (i : Fin bufMaxCount) (tmp : Local) : List CChar :=
  bytesOf t i ++ tmp.val.drop (bytesOf t i).length

section Paste

variable {tmp junk : Local} {buffer key behind : List CChar} {bufferLen keyLen : UInt32} {L : ℕ}

theorem length_bytesOf (hB : Driver.Buffers (asDriver t)) (hused : (t.entries i).inUse = .used) :
    (bytesOf t i).length = (t.entries i).bufferLen.toNat :=
  hB.length i (asDriver_inUse_eq_empty_iff.not.mpr (by simp [hused]))

theorem length_arrived (hmax : (bytesOf t i).length ≤ maxSize) (tmp : Local) :
    (arrived t i tmp).length = maxSize := by
  rw [arrived, List.length_append, List.length_drop, tmp.property, Nat.add_sub_cancel' hmax]

theorem length_bytesOf_le (hB : Driver.Buffers (asDriver t)) (hused : (t.entries i).inUse = .used)
    (hle : (t.entries i).bufferLen ≤ bufferLen) : (bytesOf t i).length ≤ bufferLen.toNat := by
  rw [length_bytesOf hB hused]
  exact UInt32.le_iff_toNat_le.mp hle

theorem exists_paste (hB : Driver.Buffers (asDriver t)) (hused : (t.entries i).inUse = .used)
    (hle : (t.entries i).bufferLen ≤ bufferLen) (hmax : (t.entries i).bufferLen.toNat ≤ maxSize)
    (tmp : Local) : ∃ t', pasteFromClipboard (UInt32.ofNat i) tmp.val bufferLen t
      = .ok ((0, arrived t i tmp, bufferLen), t') := by
  have hlen := length_bytesOf hB hused
  obtain ⟨heap, hpaste, -⟩ := pasteFromClipboard_of_le hused hle
    (hmax.trans_eq tmp.property.symm) hlen
    (hB.live i (asDriver_inUse_eq_empty_iff.not.mpr (by simp [hused]))) hB.null
  rw [← hlen] at hpaste
  exact ⟨_, hpaste⟩

/-! ## What is found in the array -/

/-- Nothing of what it held is found if the entry has an end, or is as long as the scan. -/
theorem scan_arrived (hroom : (bytesOf t i).length ≤ L)
    (hend : 0 ∈ bytesOf t i ∨ (bytesOf t i).length = L) (tmp : Local) :
    scan (arrived t i tmp) L = textOf t i := by
  rcases hend with hzero | hfull
  · exact scan_append_of_mem hzero hroom
  · exact scan_append_of_length hfull

theorem exists_scan_arrived (hzero : 0 ∉ bytesOf t i) (hroom : (bytesOf t i).length ≤ L)
    (tmp : Local) : ∃ behind, 0 ∉ behind ∧ (bytesOf t i ++ behind).length ≤ L ∧
      scan (arrived t i tmp) L = bytesOf t i ++ behind := by
  refine ⟨scan (tmp.val.drop (bytesOf t i).length) (L - (bytesOf t i).length), fun hmem ↦ ?_, ?_,
    scan_append (fun c hc h₀ ↦ hzero (h₀ ▸ hc)) hroom⟩
  · simpa using List.mem_takeWhile_imp hmem
  · have hle := length_scan_le (tmp.val.drop (bytesOf t i).length) (L - (bytesOf t i).length)
    rw [List.length_append]
    omega

theorem exists_local (hzero : 0 ∉ bytesOf t i) (hbehind : 0 ∉ behind)
    (hroom : (bytesOf t i ++ behind).length ≤ L) (hmax : L ≤ maxSize) :
    ∃ tmp : Local, scan (arrived t i tmp) L = bytesOf t i ++ behind := by
  obtain ⟨tmp, htmp⟩ : ∃ tmp : Local, tmp.val = bytesOf t i ++ behind
      ++ List.replicate (maxSize - (bytesOf t i ++ behind).length) 0 := by
    refine ⟨⟨_, ?_⟩, rfl⟩
    rw [List.length_append, List.length_replicate, Nat.add_sub_cancel' (hroom.trans hmax)]
  refine ⟨tmp, ?_⟩
  rw [arrived, htmp, List.append_assoc, List.drop_left, ← List.append_assoc,
    scan_append (forall_append_ne_zero hzero hbehind) hroom, scan_replicate_zero, List.append_nil]

theorem scan_arrived_zeroLocal (hzero : 0 ∉ bytesOf t i) (hroom : (bytesOf t i).length ≤ L) :
    scan (arrived t i zeroLocal) L = bytesOf t i := by
  rw [arrived, scan_append (fun c hc h₀ ↦ hzero (h₀ ▸ hc)) hroom, zeroLocal, List.drop_replicate,
    scan_replicate_zero, List.append_nil]

/-- An array without a zero byte. -/
def lettersLocal : Local := ⟨List.replicate maxSize 97, List.length_replicate⟩

/-! ## Staying inside the buffers -/

/-- `paste_safely` writes nowhere but to its caller's buffer, which ends where it is said to end,
and to its own array, and reads nothing else; and if the entry or the text it decodes to is longer
than the buffer, it returns `-1` and nothing has changed. -/
structure StaysInside (tmp junk : Local) (i : Fin bufMaxCount) (buffer : List CChar)
    (bufferLen : UInt32) (key : List CChar) (keyLen : UInt32) (t : Process) : Prop where
  inside : ∃ r t', pasteSafely pasteFromClipboard tmp junk (UInt32.ofNat i) buffer bufferLen key
    keyLen t = .ok (r, t')
  refused : (t.entries i).inUse = .used →
    bufferLen < (t.entries i).bufferLen ∨ bufferLen.toNat < (decoded (bytesOf t i)).length →
    pasteSafely pasteFromClipboard tmp junk (UInt32.ofNat i) buffer bufferLen key keyLen t
      = .ok ((-1, buffer), t)

theorem staysInside_of_refused
    (hnot : (t.entries i).inUse = .used → bufferLen < (t.entries i).bufferLen) :
    StaysInside tmp junk i buffer bufferLen key keyLen t := by
  have hpaste := pasteSafely_of_ne_zero junk buffer key keyLen
    (pasteFromClipboard_of_refused hnot tmp.val) (by decide)
  exact ⟨⟨_, _, hpaste⟩, fun _ _ ↦ hpaste⟩

/-- What the clipboard lets through is scanned, decoded and deciphered, and may not fit. -/
theorem staysInside_iff_of_le (hB : Driver.Buffers (asDriver t))
    (hused : (t.entries i).inUse = .used) (hle : (t.entries i).bufferLen ≤ bufferLen)
    (hmax : (t.entries i).bufferLen.toNat ≤ maxSize) (hkey : keyLen ≠ 0)
    (hkeyLen : key.length = keyLen.toNat) (hbuffer : buffer.length = bufferLen.toNat) :
    StaysInside tmp junk i buffer bufferLen key keyLen t ↔
      (bufferLen.toNat ≤ maxSize ∨ 0 ∈ arrived t i tmp) ∧
        decodedSize (scan (arrived t i tmp) bufferLen.toNat) ≤ bufferLen.toNat ∧
        decodedSize (bytesOf t i) ≤ bufferLen.toNat := by
  obtain ⟨t', hpaste⟩ := exists_paste hB hused hle hmax tmp
  have hlen := length_arrived ((length_bytesOf hB hused).trans_le hmax) tmp
  rw [← length_decoded, ← length_decoded]
  constructor
  · rintro ⟨⟨r, t'', hinside⟩, hrefused⟩
    have hscan : bufferLen.toNat ≤ maxSize ∨ 0 ∈ arrived t i tmp := by
      by_contra h
      rw [not_or, Nat.not_le] at h
      cases (pasteSafely_of_overread hpaste (hlen.trans_lt h.1) h.2).symm.trans hinside
    rw [← hlen] at hscan
    have hfits : (decoded (scan (arrived t i tmp) bufferLen.toNat)).length ≤ bufferLen.toNat := by
      by_contra h
      cases (pasteSafely_of_overrun hpaste hscan hbuffer.ge (hbuffer.trans_lt bufferLen.toNat_lt)
        (hbuffer.trans_lt (Nat.lt_of_not_le h))).symm.trans hinside
    refine ⟨hlen ▸ hscan, hfits, ?_⟩
    by_contra h
    -- it has returned `OK`, and should have refused
    have hdone := (pasteSafely_of_scan hpaste hscan hbuffer.ge _ _ _
      (hfits.trans_lt bufferLen.toNat_lt) (hfits.trans_eq hbuffer.symm)).symm.trans
      (hrefused hused (Or.inr (Nat.lt_of_not_le h)))
    revert hdone
    cases cipher junk _ key keyLen modeDecipher _ with
    | error e => exact fun hdone ↦ by cases hdone
    | ok x =>
      intro hdone
      rw [pasted, Except.ok.injEq, Prod.mk.injEq, Prod.mk.injEq] at hdone
      exact absurd hdone.1.1 (by decide)
  · rintro ⟨hscan, hfits, htext⟩
    rw [← hlen] at hscan
    refine ⟨?_, fun _ hover ↦ ?_⟩
    · have hdone := pasteSafely_of_scan hpaste hscan hbuffer.ge junk key keyLen
        (hfits.trans_lt bufferLen.toNat_lt) (hfits.trans_eq hbuffer.symm)
      have hscanned := length_scan_le (shown (scan (arrived t i tmp) bufferLen.toNat)
        bufferLen.toNat) bufferLen.toNat
      have hlength := length_unpacked hbuffer.ge (hfits.trans_eq hbuffer.symm)
      obtain ⟨r, out, -, hcipher⟩ := exists_cipher hkey hkeyLen
        ((toNat_ofNat (hscanned.trans_lt bufferLen.toNat_lt)).trans_le
          ((hscanned.trans_eq hbuffer.symm).trans_eq hlength.symm)) modeDecipher
      rw [hcipher] at hdone
      exact ⟨_, _, hdone⟩
    · rcases hover with hlt | hover
      · exact absurd hle (UInt32.not_le.mpr hlt)
      · exact absurd htext (Nat.not_le.mpr hover)

/-- **Staying inside.** Whatever its array holds before, a safe paste stays inside its buffers
exactly if it is refused, or what it finds is decoded within them: the entry, which has an end, and
what stands before it; or the entry with anything behind it that a scan of the array may find. -/
theorem staysInside_iff (ha : Stack.Fits addr) (hs : Reachable Steps (initial addr) t)
    (hentries : ∀ j, (t.entries j).inUse = .used → (t.entries j).bufferLen.toNat ≤ maxSize)
    (hkey : keyLen ≠ 0) (hkeyLen : key.length = keyLen.toNat)
    (hbuffer : buffer.length = bufferLen.toNat) :
    (∀ tmp, StaysInside tmp junk i buffer bufferLen key keyLen t) ↔
      (t.entries i).inUse = .empty ∨ bufferLen < (t.entries i).bufferLen ∨
        (0 ∈ bytesOf t i ∧ decodedSize (textOf t i) ≤ bufferLen.toNat ∧
          decodedSize (bytesOf t i) ≤ bufferLen.toNat) ∨
        (0 ∉ bytesOf t i ∧ bufferLen.toNat ≤ maxSize ∧
          ∀ behind, 0 ∉ behind → (bytesOf t i ++ behind).length ≤ bufferLen.toNat →
            decodedSize (bytesOf t i ++ behind) ≤ bufferLen.toNat) := by
  cases hused : (t.entries i).inUse with
  | empty =>
    exact iff_of_true (fun _ ↦ staysInside_of_refused fun h ↦ by simp [hused] at h) (Or.inl rfl)
  | used =>
    by_cases hlt : bufferLen < (t.entries i).bufferLen
    · exact iff_of_true (fun _ ↦ staysInside_of_refused fun _ ↦ hlt) (Or.inr (Or.inl hlt))
    have hB := buffers_of_reachable ha hs
    have hle := UInt32.not_lt.mp hlt
    have hroom := length_bytesOf_le hB hused hle
    have hone : ∀ tmp, StaysInside tmp junk i buffer bufferLen key keyLen t ↔ _ := fun tmp ↦
      staysInside_iff_of_le hB hused hle (hentries i hused) hkey hkeyLen hbuffer
    rw [forall_congr' hone, or_iff_right (show InUse.used ≠ .empty by decide), or_iff_right hlt]
    by_cases hzero : 0 ∈ bytesOf t i
    · rw [or_iff_left (fun h ↦ h.1 hzero), and_iff_right hzero]
      have hscan := scan_arrived hroom (Or.inl hzero)
      refine ⟨fun h ↦ ⟨?_, (h zeroLocal).2.2⟩, fun ⟨htext, hbytes⟩ tmp ↦
        ⟨Or.inr (List.mem_append_left _ hzero), ?_, hbytes⟩⟩
      · exact (congrArg decodedSize (hscan zeroLocal)).ge.trans (h zeroLocal).2.1
      · rwa [hscan]
    · rw [or_iff_right (fun h ↦ hzero h.1), and_iff_right hzero]
      constructor
      · intro h
        have hmax : bufferLen.toNat ≤ maxSize := by
          refine (h lettersLocal).1.resolve_right fun hmem ↦ ?_
          rcases List.mem_append.mp hmem with hmem | hmem
          · exact hzero hmem
          · cases (List.mem_replicate.mp (List.mem_of_mem_drop hmem)).2
        refine ⟨hmax, fun behind hbehind hlen ↦ ?_⟩
        obtain ⟨tmp, hscan⟩ := exists_local hzero hbehind hlen hmax
        rw [← hscan]
        exact (h tmp).2.1
      · rintro ⟨hmax, h⟩ tmp
        obtain ⟨behind, hbehind, hlen, hscan⟩ := exists_scan_arrived hzero hroom tmp
        rw [hscan]
        have hbytes := h [] List.not_mem_nil (by rwa [List.append_nil])
        rw [List.append_nil] at hbytes
        exact ⟨Or.inl hmax, h behind hbehind hlen, hbytes⟩

theorem le_maxSize_of_stored {bytes : List CChar}
    (hlen : (t.entries 99).bufferLen.toNat = bytes.length) (hle : bytes.length ≤ maxSize)
    (hempty : ∀ j, j ≠ 99 → (t.entries j).inUse = .empty)
    (j : Fin bufMaxCount) (hj : (t.entries j).inUse = .used) :
    (t.entries j).bufferLen.toNat ≤ maxSize := by
  by_cases h : j = 99
  · rwa [h, hlen]
  · rw [hempty j h] at hj
    cases hj

/-- The entry `ab` is pasted to two bytes. -/
theorem staysInside_iff_ab : ∃ t, Reachable Steps (initial 4096) t ∧
    (t.entries 99).inUse = .used ∧ bytesOf t 99 = [97, 98] ∧
    ∀ tmp, StaysInside tmp zeroLocal 99 [1, 1] 2 [97] 1 t := by
  obtain ⟨t, hs, hused, hlen, hbytes, hempty⟩ := exists_stored [97, 98] (by decide)
  refine ⟨t, hs, hused, hbytes, (staysInside_iff (show Stack.Fits 4096 by decide) hs
    (le_maxSize_of_stored hlen (by decide) hempty) (by decide) (by decide) (by decide)).mpr ?_⟩
  rw [hbytes]
  refine Or.inr (Or.inr (Or.inr ⟨by decide, by decide, fun behind _ hle ↦ ?_⟩))
  obtain rfl : behind = [] := List.length_eq_zero_iff.mp (by
    rw [List.length_append] at hle
    exact Nat.le_zero.mp (Nat.le_of_add_le_add_left hle))
  decide

/-- A paste of the entry `a9` to two bytes writes nine. -/
theorem not_staysInside : ¬∀ (addr : Addr) (t : Process) (tmp junk : Local) (i : Fin bufMaxCount)
    (buffer : List CChar) (bufferLen : UInt32) (key : List CChar) (keyLen : UInt32),
    Stack.Fits addr → Reachable Steps (initial addr) t →
    (∀ j, (t.entries j).inUse = .used → (t.entries j).bufferLen.toNat ≤ maxSize) →
    keyLen ≠ 0 → key.length = keyLen.toNat → buffer.length = bufferLen.toNat →
    StaysInside tmp junk i buffer bufferLen key keyLen t := by
  intro h
  obtain ⟨t, hs, hused, hlen, hbytes, hempty⟩ := exists_stored [97, 57] (by decide)
  have ha : Stack.Fits 4096 := by decide
  have hmax : (t.entries 99).bufferLen.toNat ≤ maxSize := by
    rw [hlen]
    decide
  have hsafe := h 4096 t zeroLocal zeroLocal 99 [0, 0] 2 [97] 1 ha hs
    (le_maxSize_of_stored hlen (by decide) hempty) (by decide) (by decide) (by decide)
  rw [staysInside_iff_of_le (buffers_of_reachable ha hs) hused
    (by rw [UInt32.le_iff_toNat_le, hlen]; decide) hmax (by decide) (by decide) (by decide),
    hbytes] at hsafe
  exact absurd hsafe.2.2 (by decide +kernel)

/-! ## What the array held before -/

/-- Whatever the array of `paste_safely` holds at first, two runs return, return the same and leave
the same bytes where the caller has asked for them. -/
def SameResults (junk : Local) (id : UInt32) (buffer : List CChar) (bufferLen : UInt32)
    (key : List CChar) (keyLen : UInt32) (t : Process) : Prop :=
  ∀ tmp tmp' : Local, ∃ r out out' t₁ t₂,
    pasteSafely pasteFromClipboard tmp junk id buffer bufferLen key keyLen t = .ok ((r, out), t₁) ∧
    pasteSafely pasteFromClipboard tmp' junk id buffer bufferLen key keyLen t
      = .ok ((r, out'), t₂) ∧
    out.take bufferLen.toNat = out'.take bufferLen.toNat

theorem sameResults_of_refused
    (hnot : (t.entries i).inUse = .used → bufferLen < (t.entries i).bufferLen) :
    SameResults junk (UInt32.ofNat i) buffer bufferLen key keyLen t := fun tmp tmp' ↦
  ⟨_, _, _, _, _,
    pasteSafely_of_ne_zero _ _ _ _ (pasteFromClipboard_of_refused hnot tmp.val) (by decide),
    pasteSafely_of_ne_zero _ _ _ _ (pasteFromClipboard_of_refused hnot tmp'.val) (by decide), rfl⟩

section Stale

variable (hB : Driver.Buffers (asDriver t)) (hused : (t.entries i).inUse = .used)
  (hle : (t.entries i).bufferLen ≤ bufferLen) (hmax : bufferLen.toNat ≤ maxSize)
  (hkeyLen : key.length = keyLen.toNat) (hbuffer : bufferLen.toNat ≤ buffer.length)
include hB hused hle hmax hkeyLen hbuffer

theorem sameResults_iff_opened : SameResults junk (UInt32.ofNat i) buffer bufferLen key keyLen t ↔
    ∀ tmp, Opens keyLen (scan (arrived t i tmp) bufferLen.toNat) bufferLen.toNat buffer.length ∧
      opened key (scan (arrived t i tmp) bufferLen.toNat) bufferLen.toNat
        = opened key (scan (arrived t i zeroLocal) bufferLen.toNat) bufferLen.toNat := by
  have hbytes : (t.entries i).bufferLen.toNat ≤ maxSize :=
    (UInt32.le_iff_toNat_le.mp hle).trans hmax
  have hscan : ∀ tmp, bufferLen.toNat ≤ (arrived t i tmp).length ∨ 0 ∈ arrived t i tmp :=
    fun tmp ↦ Or.inl (hmax.trans_eq
      (length_arrived ((length_bytesOf hB hused).trans_le hbytes) tmp).symm)
  have hlt : 25 * bufferLen.toNat < 2 ^ 32 :=
    (Nat.mul_le_mul_left 25 hmax).trans_lt (by decide)
  have hopens : ∀ tmp, Opens keyLen (scan (arrived t i tmp) bufferLen.toNat) bufferLen.toNat
      buffer.length → ∃ out t', pasteSafely pasteFromClipboard tmp junk (UInt32.ofNat i) buffer
        bufferLen key keyLen t = .ok ((0, out), t') ∧ out.take bufferLen.toNat
          = opened key (scan (arrived t i tmp) bufferLen.toNat) bufferLen.toNat := by
    intro tmp h
    obtain ⟨t', hpaste⟩ := exists_paste hB hused hle hbytes tmp
    obtain ⟨out, hrun⟩ := exists_pasteSafely_of_opens hpaste (hscan tmp) hbuffer hlt hkeyLen h junk
    exact ⟨out, t', hrun⟩
  constructor
  · intro h tmp
    obtain ⟨r, out, out', t₁, t₂, hrun, hrun', hsame⟩ := h tmp zeroLocal
    obtain ⟨t', hpaste⟩ := exists_paste hB hused hle hbytes tmp
    obtain ⟨t'', hpaste'⟩ := exists_paste hB hused hle hbytes zeroLocal
    have hopen := opens_of_pasteSafely hpaste (hscan tmp) hbuffer hlt hrun
    obtain ⟨out₁, t₁', hrun₁, hout₁⟩ := hopens tmp hopen
    obtain ⟨out₂, t₂', hrun₂, hout₂⟩ := hopens zeroLocal
      (opens_of_pasteSafely hpaste' (hscan zeroLocal) hbuffer hlt hrun')
    obtain ⟨⟨rfl, rfl⟩, rfl⟩ : (r = 0 ∧ out = out₁) ∧ t₁ = t₁' := by simpa [hrun] using hrun₁
    obtain ⟨rfl, rfl⟩ : out' = out₂ ∧ t₂ = t₂' := by simpa [hrun'] using hrun₂
    exact ⟨hopen, by rw [← hout₁, hsame, hout₂]⟩
  · intro h tmp tmp'
    obtain ⟨out, t₁, hrun, hout⟩ := hopens tmp (h tmp).1
    obtain ⟨out', t₂, hrun', hout'⟩ := hopens tmp' (h tmp').1
    exact ⟨0, out, out', t₁, t₂, hrun, hrun', by rw [hout, hout', (h tmp).2, (h tmp').2]⟩

/-- What the array held does not matter where it is not found, if what is found can be opened. -/
theorem sameResults_iff_of_end
    (hend : 0 ∈ bytesOf t i ∨ (bytesOf t i).length = bufferLen.toNat) :
    SameResults junk (UInt32.ofNat i) buffer bufferLen key keyLen t ↔
      decodedSize (textOf t i) ≤ buffer.length ∧
        (keyLen ≠ 0 ∨ ∀ c ∈ textOf t i, isDigit c = true) := by
  have hroom := length_bytesOf_le hB hused hle
  have htext : ∀ c ∈ textOf t i, c ≠ 0 := fun c hc ↦ by simpa using List.mem_takeWhile_imp hc
  rw [sameResults_iff_opened hB hused hle hmax hkeyLen hbuffer]
  simp only [scan_arrived hroom hend, and_true, Opens,
    scan_shown_eq_nil_iff htext ((List.takeWhile_prefix _).length_le.trans hroom)]
  exact ⟨fun h ↦ h zeroLocal, fun h _ ↦ h⟩

/-- Where what the array held is found, the entry has to cover it. -/
theorem sameResults_iff_covers (hzero : 0 ∉ bytesOf t i)
    (hlt : (bytesOf t i).length < bufferLen.toNat) :
    SameResults junk (UInt32.ofNat i) buffer bufferLen key keyLen t ↔
      keyLen ≠ 0 ∧ Covers key (bytesOf t i) bufferLen.toNat buffer.length := by
  rw [sameResults_iff_opened hB hused hle hmax hkeyLen hbuffer, ← covers_iff hzero hlt,
    scan_arrived_zeroLocal hzero hlt.le]
  constructor
  · intro h behind hbehind hlen
    obtain ⟨tmp, hscan⟩ := exists_local hzero hbehind hlen hmax
    rw [← hscan]
    exact h tmp
  · intro h tmp
    obtain ⟨behind, hbehind, hlen, hscan⟩ := exists_scan_arrived hzero hlt.le tmp
    rw [hscan]
    exact h behind hbehind hlen

end Stale

/-- **Stale bytes.** What the array of `paste_safely` held before does not matter exactly if the
clipboard refuses the paste; or the entry has an end or is as long as the caller has asked for, what
it decodes to fits the caller's array, and there is a key or nothing to decipher; or there is a key,
and the entry covers what is found behind it. -/
theorem sameResults_iff (ha : Stack.Fits addr) (hs : Reachable Steps (initial addr) t) (id : UInt32)
    (hmax : bufferLen.toNat ≤ maxSize) (hkeyLen : key.length = keyLen.toNat)
    (hbuffer : bufferLen.toNat ≤ buffer.length) :
    SameResults junk id buffer bufferLen key keyLen t ↔ ∃ i : Fin bufMaxCount, id.toNat = i ∧
      ((t.entries i).inUse = .empty ∨ bufferLen < (t.entries i).bufferLen ∨
        ((0 ∈ bytesOf t i ∨ (bytesOf t i).length = bufferLen.toNat) ∧
          decodedSize (textOf t i) ≤ buffer.length ∧
          (keyLen ≠ 0 ∨ ∀ c ∈ textOf t i, isDigit c = true)) ∨
        (0 ∉ bytesOf t i ∧ (bytesOf t i).length < bufferLen.toNat ∧ keyLen ≠ 0 ∧
          Covers key (bytesOf t i) bufferLen.toNat buffer.length)) := by
  rcases Nat.lt_or_ge id.toNat bufMaxCount with hid | hid
  swap
  · -- the clipboard looks behind its table
    refine iff_of_false (fun h ↦ ?_) (fun ⟨i, hi, _⟩ ↦ absurd i.isLt (Nat.not_lt.mpr (hi ▸ hid)))
    obtain ⟨r, out, -, t₁, -, hok, -⟩ := h zeroLocal zeroLocal
    cases (bind_error (pasteFromClipboard_of_index hid _ _ _) _).symm.trans hok
  obtain ⟨i, hi⟩ : ∃ i : Fin bufMaxCount, id.toNat = i := ⟨⟨id.toNat, hid⟩, rfl⟩
  obtain rfl : id = UInt32.ofNat i := by rw [← hi, UInt32.ofNat_toNat]
  have hexists : ∀ P : Fin bufMaxCount → Prop,
      (∃ j : Fin bufMaxCount, (UInt32.ofNat i).toNat = j ∧ P j) ↔ P i := fun P ↦
    ⟨fun ⟨j, hj, hP⟩ ↦ Fin.ext (hi.symm.trans hj) ▸ hP, fun hP ↦ ⟨i, hi, hP⟩⟩
  rw [hexists]
  cases hused : (t.entries i).inUse with
  | empty =>
    exact iff_of_true (sameResults_of_refused fun h ↦ by simp [hused] at h) (Or.inl rfl)
  | used =>
    by_cases hlt : bufferLen < (t.entries i).bufferLen
    · exact iff_of_true (sameResults_of_refused fun _ ↦ hlt) (Or.inr (Or.inl hlt))
    have hle := UInt32.not_lt.mp hlt
    have hB := buffers_of_reachable ha hs
    have hroom := length_bytesOf_le hB hused hle
    rw [or_iff_right (show InUse.used ≠ .empty by decide), or_iff_right hlt]
    by_cases hend : 0 ∈ bytesOf t i ∨ (bytesOf t i).length = bufferLen.toNat
    · rw [or_iff_left fun h ↦ hend.elim h.1 h.2.1.ne, and_iff_right hend]
      exact sameResults_iff_of_end hB hused hle hmax hkeyLen hbuffer hend
    · rw [or_iff_right fun h ↦ hend h.1]
      rw [not_or] at hend
      have hshort := Nat.lt_of_le_of_ne hroom hend.2
      rw [and_iff_right hend.1, and_iff_right hshort]
      exact sameResults_iff_covers hB hused hle hmax hkeyLen hbuffer hend.1 hshort

/-- The entry `ab` is pasted to an array of three bytes, of which the caller asks for two. -/
theorem sameResults_iff_ab : ∃ t, Reachable Steps (initial 4096) t ∧
    (t.entries 99).inUse = .used ∧ bytesOf t 99 = [97, 98] ∧
    SameResults zeroLocal 99 [1, 1, 1] 2 [97] 1 t := by
  obtain ⟨t, hs, hused, -, hbytes, -⟩ := exists_stored [97, 98] (by decide)
  refine ⟨t, hs, hused, hbytes, (sameResults_iff (show Stack.Fits 4096 by decide) hs 99 (by decide)
    (by decide) (by decide)).mpr ⟨99, rfl, Or.inr (Or.inr (Or.inl ?_))⟩⟩
  rw [textOf, hbytes]
  exact ⟨Or.inr rfl, by decide +kernel, Or.inl (by decide)⟩

/-- The entry `ab`, pasted to four bytes, is read on with what the array held. -/
theorem not_sameResults : ¬∀ (addr : Addr) (t : Process) (junk : Local) (id : UInt32)
    (buffer : List CChar) (bufferLen : UInt32) (key : List CChar) (keyLen : UInt32),
    Stack.Fits addr → Reachable Steps (initial addr) t → bufferLen.toNat ≤ maxSize →
    key.length = keyLen.toNat → bufferLen.toNat ≤ buffer.length →
    SameResults junk id buffer bufferLen key keyLen t := by
  intro h
  obtain ⟨t, hs, hused, hlen, hbytes, -⟩ := exists_stored [97, 98] (by decide)
  have ha : Stack.Fits 4096 := by decide
  have hsame := h 4096 t zeroLocal (UInt32.ofNat (99 : Fin bufMaxCount)) [0, 0, 0, 0] 4 [97] 1 ha
    hs (by decide) (by decide) (by decide)
  rw [sameResults_iff_covers (buffers_of_reachable ha hs) hused
    (by rw [UInt32.le_iff_toNat_le, hlen]; decide) (by decide) (by decide) (by decide)
    (by rw [hbytes]; decide) (by rw [hbytes]; decide), hbytes] at hsame
  -- with nothing behind it, it does not fill the buffer
  obtain ⟨-, l, c, ds, -, -, -, hcovers⟩ := hsame
  exact absurd ((hcovers [] (by decide) (by decide)).2.1 (by decide)) (by decide +kernel)

end Paste

end Simulated

end MinixClipboard
