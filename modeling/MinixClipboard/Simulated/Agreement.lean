import MinixClipboard.Client.Refines
import MinixClipboard.Simulated.Spec

/-!
# The simulated clipboard and the real one

The codec is tested against a clipboard without a device. One process makes the same calls on both,
and this file says for which sequences of calls the two give the same answers.

They keep the same entries and start with the same stack of ids. They part in two ways. A paste is
checked against the length of the entry here and against the length its bytes announce there; and a
pasted entry's id goes back to the stack there and is lost here, which the next copy shows.

The simulated table is looked at as the table of a driver whose entries have no owner (`asDriver`),
so that what is known of the driver's buffers is known of the simulated ones.
-/

namespace MinixClipboard

namespace Simulated

open Fallible Program
open Driver (FreeIds Buffers words toNat_neg_one_ne ofNat_fin_injective)

variable {t t' : Process} {s s' : Driver} {p : Int32} {i j : Fin bufMaxCount}

/-! ## One call on both sides -/

/-- What a call of the simulated library returns, and the buffer a paste leaves. -/
inductive SimResult
  | copied (r : Int32)
  | pasted (r : UInt32) (buffer : List CChar)
  deriving DecidableEq

/-- A library call on the simulated clipboard, for a `malloc` that makes this choice; a paste is
given the first bytes of `memory` for its buffer. -/
def run (choice : Option Addr) (memory : Memory) : LibCall → ProcessM SimResult
  | .copy buffer bufferLen => do
    return .copied (← copyToClipboard choice (buffer.bytes bufferLen.toNat) bufferLen)
  | .paste id bufferLen => do
    let (r, buffer, _) ← pasteFromClipboard id (memory.bytes bufferLen.toNat) bufferLen
    return .pasted r buffer

/-- A call with no more than an entry can hold, and an id the table has. -/
def InRange : LibCall → Prop
  | .copy _ bufferLen => bufferLen.toNat ≤ entryLenLimit
  | .paste id _ => id.toNat < bufMaxCount

/-- Both sides. -/
structure Both where
  sim : Process
  real : Driver

/-- A call made on both sides, and its results. -/
structure BothCall where
  call : LibCall
  /-- What a paste finds in its buffer. -/
  memory : Memory
  sim : SimResult
  real : Result

/-- Process `p` makes a call on both sides, and both return. -/
structure Calls (p : Int32) (b : Both) (l : BothCall) (b' : Both) : Prop where
  inRange : InRange l.call
  real : ∃ ancestor, Performs ancestor b.real (p, l.call, l.real) b'.real
  sim : ∃ choice, run choice l.memory l.call b.sim = .ok (l.sim, b'.sim)

/-- Both sides give the same answer: the same id, or the same success and the same bytes. -/
def Agree (l : BothCall) : Prop :=
  match l.call, l.real, l.sim with
  | .copy _ _, .copied r, .copied r' => r'.toUInt32 = r
  | .paste _ bufferLen, .pasted r written, .pasted r' buffer =>
    r' = r ∧ buffer = (l.memory.write written).bytes bufferLen.toNat
  | _, _, _ => False

/-! ## The simulated table, as a driver's -/

/-- The flag of an entry that nobody locks. -/
def InUse.asDriver : InUse → MinixClipboard.InUse
  | .empty => .empty
  | .used => .used

/-- The simulated clipboard as a driver whose entries have no owner. -/
def asDriver (t : Process) : Driver where
  entries i := ⟨(t.entries i).bufferLen, (t.entries i).decompressedLen, 0, 0, (t.entries i).buffer,
    (t.entries i).inUse.asDriver⟩
  availableEntries := t.availableEntries
  addr := t.addr
  heap := t.heap

theorem asDriver_inUse_eq_empty_iff : ((asDriver t).entries i).inUse = .empty ↔
    (t.entries i).inUse = .empty := by
  change (t.entries i).inUse.asDriver = .empty ↔ _
  cases (t.entries i).inUse <;> simp [InUse.asDriver]

theorem driver_ext {s s' : Driver} (hentries : ∀ i, s.entries i = s'.entries i)
    (hstack : s.availableEntries = s'.availableEntries) (haddr : s.addr = s'.addr)
    (hheap : s.heap = s'.heap) : s = s' := by
  obtain ⟨⟨e, a⟩, addr, heap⟩ := s
  obtain ⟨⟨e', a'⟩, addr', heap'⟩ := s'
  obtain rfl : e = e' := funext hentries
  simp_all

/-- The message of a driver's set that stores what a message stores here, for no owner. -/
def WriteMsg.asSet (m : WriteMsg) : SetMsg :=
  ⟨0, m.bufferLen, m.decompressedLen, fun k ↦ m.buffer.getD k 0⟩

theorem setBytes_asSet {m : WriteMsg} (hlen : m.bufferLen.toNat ≤ m.buffer.length) :
    Driver.setBytes m.asSet = m.buffer.take m.bufferLen.toNat := by
  refine List.ext_getElem (by simp [WriteMsg.asSet, Driver.setBytes, hlen]) fun k hk hk' ↦ ?_
  rw [List.length_take] at hk'
  simp only [Driver.setBytes, WriteMsg.asSet, Memory.bytes, List.getElem_map, List.getElem_range,
    List.getElem_take]
  exact List.getD_eq_getElem _ _ (by omega)

/-- Storing an entry here is storing one there. -/
theorem asDriver_stored (m : WriteMsg) (a : Addr) (heap : CHeap) :
    asDriver (stored (popped t) i m a heap)
      = ((asDriver t).withStack (asDriver t).availableEntries.pop).stored i m.asSet a heap := by
  refine driver_ext (fun j ↦ ?_) rfl rfl rfl
  by_cases hji : j = i
  · subst hji
    rw [Driver.stored_entries_self]
    simp only [asDriver, stored, update, withHeap, Function.update_self]
    rfl
  · rw [Driver.stored_entries_of_ne hji]
    simp only [asDriver, stored, update, withHeap, Function.update_of_ne hji]
    rfl

theorem asDriver_emptied (heap : CHeap) :
    asDriver (emptied t i heap) = (asDriver t).emptied i t.availableEntries heap := by
  refine driver_ext (fun j ↦ ?_) rfl rfl rfl
  by_cases hji : j = i
  · subst hji
    rw [Driver.emptied_entries_self]
    simp only [asDriver, emptied, update, withHeap, Function.update_self]
    rfl
  · rw [Driver.emptied_entries_of_ne hji]
    simp only [asDriver, emptied, update, withHeap, Function.update_of_ne hji]

/-! ## The simulated side -/

/-- The simulated clipboard is in order, with these ids on its stack: those of entries that have
been pasted are missing. -/
structure SimInv (t : Process) (ids : List (Fin bufMaxCount)) : Prop where
  fits : Stack.Fits t.addr
  holds : Stack.Holds t.addr t.availableEntries (words ids)
  nodup : ids.Nodup
  empty : ∀ i ∈ ids, (t.entries i).inUse = .empty
  buffers : Buffers (asDriver t)

/-- What is stored, by id. -/
def texts (t : Process) (i : Fin bufMaxCount) : Option (List CChar) :=
  (LockTable.value (asDriver t).table i).map Driver.Payload.bytes

theorem texts_eq_none_iff : texts t i = none ↔ (t.entries i).inUse = .empty := by
  rw [texts, Option.map_eq_none_iff, LockTable.value, Option.map_eq_none_iff,
    Driver.table_eq_none_iff, asDriver_inUse_eq_empty_iff]

theorem texts_of_used (h : (t.entries i).inUse = .used) :
    texts t i = some (t.heap.contents (t.entries i).buffer) := by
  have huse : ((asDriver t).entries i).inUse = .used := congrArg InUse.asDriver h
  rw [texts, LockTable.value, Driver.table, Driver.slotOf_of_used huse]
  rfl

theorem texts_update {t' : Process} {a : Option (Slot Int32 Driver.Payload)}
    (htable : (asDriver t').table = Function.update (asDriver t).table i a) :
    texts t' = Function.update (texts t) i
      ((a.map Slot.value).map Driver.Payload.bytes) := by
  funext j
  rw [texts, htable, LockTable.value_update]
  exact Function.apply_update (fun _ ↦ Option.map Driver.Payload.bytes)
    (LockTable.value (asDriver t).table) i _ j

variable {ids : List (Fin bufMaxCount)} {choice : Option Addr} {memory buffer : Memory}
  {id bufferLen : UInt32} {r : SimResult}

theorem simInv_initial {addr : Addr} (ha : Stack.Fits addr) :
    SimInv (initial addr) (List.finRange bufMaxCount) where
  fits := ha
  holds := (Driver.freeIds_initial ha).holds
  nodup := List.nodup_finRange _
  empty _ _ := rfl
  buffers := (Driver.inv_initial ha).buffers.of_entries rfl (fun _ ↦ Iff.rfl) (fun _ ↦ rfl)
    fun _ ↦ rfl

theorem SimInv.freeId (h : SimInv t (ids ++ [i])) : FreeId t i :=
  freeId_of_holds (by rw [← Driver.words_append]; exact h.holds) (h.empty i (by simp))

theorem SimInv.copyToClipboard_nil (h : SimInv t []) (choice : Option Addr) {src : List CChar}
    (hlen : bufferLen.toNat ≤ src.length) :
    copyToClipboard choice src bufferLen t = .ok (-1, t) := by
  have hempty : t.availableEntries.isEmpty t.addr = true := (Stack.isEmpty_iff h.holds).mpr rfl
  exact (copyToClipboard_eq_write hlen choice).trans (clipboardWrite_of_isEmpty hempty _ choice)

theorem SimInv.of_copyToClipboard (h : SimInv t (ids ++ [i])) {src : List CChar}
    (hlen : bufferLen.toNat ≤ src.length) {ret : Int32}
    (hcopied : copyToClipboard choice src bufferLen t = .ok (ret, t')) :
    ret = (UInt32.ofNat i).toInt32 ∧ SimInv t' ids ∧
      texts t' = Function.update (texts t) i (some (src.take bufferLen.toNat)) := by
  rcases copyToClipboard_of_freeId hlen h.freeId h.buffers.null choice with
    ⟨a, heap, hcopy, hplaces, -⟩ | ⟨-, -, hcopy⟩
  · rw [hcopied] at hcopy
    obtain ⟨rfl, rfl⟩ := Prod.mk.inj (Except.ok.inj hcopy)
    obtain ⟨m, hm⟩ : ∃ m, m = copyMsg src bufferLen := ⟨_, rfl⟩
    -- what is stored is as much of the buffer as the caller says
    have hbytes : Driver.setBytes m.asSet = src.take bufferLen.toNat := by
      rw [hm, setBytes_asSet hlen, copyMsg]
    have hplaces' : t.heap.Places (Driver.setBytes m.asSet) a heap := by
      rwa [hbytes]
    have hB : Buffers ((asDriver t).withStack (asDriver t).availableEntries.pop) :=
      h.buffers.of_entries rfl (fun _ ↦ Iff.rfl) (fun _ ↦ rfl) fun _ ↦ rfl
    have hnodup := List.nodup_append.mp h.nodup
    rw [← hm]
    refine ⟨rfl, ⟨h.fits, ?_, hnodup.1, fun j hj ↦ ?_, ?_⟩, ?_⟩
    · refine Stack.pop_spec (v := UInt32.ofNat i) ?_
      rw [← Driver.words_append]
      exact h.holds
    · have hji : j ≠ i := fun heq ↦ hnodup.2.2 j hj i (List.mem_singleton_self i) heq
      simp only [stored, withHeap, update, Function.update_of_ne hji]
      exact h.empty j (List.mem_append_left _ hj)
    · rw [asDriver_stored]
      exact hB.stored hplaces'
    · rw [← hbytes]
      refine texts_update (a := some ⟨Driver.setPayload m.asSet a, none⟩) ?_
      rw [asDriver_stored]
      exact Driver.table_stored hB hplaces'
  · rw [hcopied] at hcopy
    cases hcopy

theorem SimInv.exists_pasteFromClipboard (h : SimInv t ids) (hid : id.toNat = i)
    (hused : (t.entries i).inUse = .used)
    (hle : (t.heap.contents (t.entries i).buffer).length ≤ bufferLen.toNat) (dst : List CChar)
    (hroom : (t.heap.contents (t.entries i).buffer).length ≤ dst.length) :
    ∃ t', pasteFromClipboard id dst bufferLen t
        = .ok ((0, t.heap.contents (t.entries i).buffer
          ++ dst.drop (t.heap.contents (t.entries i).buffer).length, bufferLen), t') ∧
      SimInv t' ids ∧ texts t' = Function.update (texts t) i none := by
  obtain rfl : id = UInt32.ofNat i := by
    rw [← UInt32.toNat_inj, Driver.toNat_ofNat_fin, hid]
  have huse : ((asDriver t).entries i).inUse ≠ .empty :=
    asDriver_inUse_eq_empty_iff.not.mpr (by simp [hused])
  have hlen : (t.heap.contents (t.entries i).buffer).length = (t.entries i).bufferLen.toNat :=
    h.buffers.length i huse
  obtain ⟨heap, hpaste, hnull, hframe⟩ := @pasteFromClipboard_of_le _ _ dst bufferLen hused
    (UInt32.le_iff_toNat_le.mpr (by rw [← hlen]; exact hle)) (by rwa [← hlen]) hlen
    (h.buffers.live i huse) h.buffers.null
  rw [← hlen] at hpaste
  refine ⟨emptied t i heap, hpaste, ⟨h.fits, h.holds, h.nodup, fun j hj ↦ ?_, ?_⟩, ?_⟩
  · by_cases hji : j = i
    · subst hji
      simp [emptied, update]
    · simp only [emptied, update, withHeap, Function.update_of_ne hji]
      exact h.empty j hj
  · rw [asDriver_emptied]
    exact h.buffers.emptied huse hnull hframe _
  · refine texts_update (a := none) ?_
    rw [asDriver_emptied]
    exact Driver.table_emptied h.buffers huse hframe _

theorem SimInv.pasteFromClipboard_refused (h : SimInv t ids) (hid : id.toNat = i)
    (hnot : (t.entries i).inUse = .used →
      ¬(t.heap.contents (t.entries i).buffer).length ≤ bufferLen.toNat) (dst : List CChar) :
    pasteFromClipboard id dst bufferLen t = .ok ((-1, dst, bufferLen), t) := by
  obtain rfl : id = UInt32.ofNat i := by
    rw [← UInt32.toNat_inj, Driver.toNat_ofNat_fin, hid]
  refine pasteFromClipboard_of_refused (fun huse ↦ ?_) dst
  have hlen : (t.heap.contents (t.entries i).buffer).length = (t.entries i).bufferLen.toNat :=
    h.buffers.length i (asDriver_inUse_eq_empty_iff.not.mpr (by simp [huse]))
  have hle := hnot huse
  rw [hlen, Nat.not_le] at hle
  exact UInt32.lt_iff_toNat_lt.mpr hle

theorem SimInv.run_copy_nil (h : SimInv t []) (choice : Option Addr) (memory buffer : Memory)
    (bufferLen : UInt32) :
    run choice memory (.copy buffer bufferLen) t = .ok (.copied (-1), t) := by
  rw [run, bind_ok (h.copyToClipboard_nil choice (by simp))]
  rfl

theorem SimInv.run_copy (h : SimInv t (ids ++ [i]))
    (hrun : run choice memory (.copy buffer bufferLen) t = .ok (r, t')) :
    r = .copied (UInt32.ofNat i).toInt32 ∧ SimInv t' ids ∧
      texts t' = Function.update (texts t) i (some (buffer.bytes bufferLen.toNat)) := by
  obtain ⟨ret, hcopied, rfl⟩ := bind_pure_ok_iff.mp hrun
  obtain ⟨rfl, hI, htexts⟩ := h.of_copyToClipboard (by simp) hcopied
  rw [List.take_of_length_le (by simp)] at htexts
  exact ⟨rfl, hI, htexts⟩

theorem SimInv.run_paste (h : SimInv t ids) (hid : id.toNat = i)
    (hused : (t.entries i).inUse = .used)
    (hle : (t.heap.contents (t.entries i).buffer).length ≤ bufferLen.toNat)
    (choice : Option Addr) (memory : Memory) :
    ∃ t', run choice memory (.paste id bufferLen) t = .ok (.pasted 0
        ((memory.write (t.heap.contents (t.entries i).buffer)).bytes bufferLen.toNat), t') ∧
      SimInv t' ids ∧ texts t' = Function.update (texts t) i none := by
  obtain ⟨t', hpaste, hrest⟩ := h.exists_pasteFromClipboard hid hused hle
    (memory.bytes bufferLen.toNat) (by simpa using hle)
  refine ⟨t', ?_, hrest⟩
  rw [run, bind_ok hpaste, Memory.bytes_write_of_le _ hle]
  rfl

theorem SimInv.run_paste_refused (h : SimInv t ids) (hid : id.toNat = i)
    (hnot : (t.entries i).inUse = .used →
      ¬(t.heap.contents (t.entries i).buffer).length ≤ bufferLen.toNat)
    (choice : Option Addr) (memory : Memory) :
    run choice memory (.paste id bufferLen) t
      = .ok (.pasted (-1) (memory.bytes bufferLen.toNat), t) := by
  rw [run, bind_ok (h.pasteFromClipboard_refused hid hnot _)]
  rfl

/-! ## The real side -/

section Real

variable {ancestor : Int32 → Int32 → Bool} {taken : List (Fin bufMaxCount)} {res : Result}

theorem performs_copy_nil (hids : FreeIds s []) (hlen : bufferLen.toNat ≤ entryLenLimit)
    (h : Performs ancestor s (p, .copy buffer bufferLen, res) s') :
    res = .copied (-1) ∧ s' = s := by
  obtain ⟨-, locals, env, hfd, hexec⟩ := h
  rw [exec_copy_eq hfd hlen, bind_ok (hids.doClipboardSet_nil _ _)] at hexec
  obtain ⟨rfl, rfl⟩ := of_pure_ok hexec
  exact ⟨rfl, rfl⟩

theorem performs_copy (hQ : Quiet s) (hids : FreeIds s (ids ++ [i]))
    (hlen : bufferLen.toNat ≤ entryLenLimit)
    (h : Performs ancestor s (p, .copy buffer bufferLen, res) s') :
    res = .copied (UInt32.ofNat i.val) ∧ Quiet s' ∧ FreeIds s' ids ∧
      clip s' = Function.update (clip s) i (some (p, buffer.bytes bufferLen.toNat)) := by
  have hstep := performs_refines (e := ⟨s, _, s'⟩) hQ h
  obtain ⟨-, locals, env, hfd, hexec⟩ := h
  rw [exec_copy_eq hfd hlen] at hexec
  obtain ⟨r, hset, rfl⟩ := bind_pure_ok_iff.mp hexec
  obtain ⟨rfl, hids', -⟩ := hids.of_set hset
  rw [toUInt32_ofInt_fin] at hstep ⊢
  refine ⟨rfl, hstep.1, hids', ?_⟩
  rcases hstep.2.of_copy with hneg | ⟨j, hj, -, hclip⟩
  · exact absurd hneg.symm (toNat_neg_one_ne i)
  · rw [hclip, ofNat_fin_injective hj]

theorem performs_paste (hQ : Quiet s) (hid : id.toNat = i)
    (h : Performs ancestor s (p, .paste id bufferLen, res) s') :
    (Grants ancestor p s i bufferLen ∧
      res = .pasted 0 (s.heap.contents (s.entries i).buffer) ∧ Quiet s' ∧
      clip s' = Function.update (clip s) i none ∧
      ∀ ids, FreeIds s ids → FreeIds s' (ids ++ [i])) ∨
    (¬Grants ancestor p s i bufferLen ∧ res = .pasted (-1) [] ∧ s' = s) := by
  obtain ⟨hp, locals, env, hfd, hexec⟩ := h
  obtain ⟨hgranted, hdenied⟩ := exec_paste ancestor env hQ hp hfd hid bufferLen locals
  by_cases hgrant : Grants ancestor p s i bufferLen
  · obtain ⟨t, hok, hrest⟩ := hgranted hgrant
    obtain ⟨rfl, rfl⟩ := of_pure_ok (hok.symm.trans hexec)
    exact Or.inl ⟨hgrant, rfl, hrest⟩
  · obtain ⟨rfl, rfl⟩ := of_pure_ok ((hdenied hgrant).symm.trans hexec)
    exact Or.inr ⟨hgrant, rfl, rfl⟩

end Real

/-! ## Both sides -/

/-- The real clipboard has given an entry away. -/
def Taken (e : Event Both BothCall) : Prop :=
  ∃ id bufferLen written, e.label.call = .paste id bufferLen ∧ e.label.real = .pasted 0 written

/-- When the two sides cannot be told apart by a call: a copy comes before the first paste that
takes an entry, and a paste's buffer is long enough for the bytes stored exactly if it is for the
bytes announced. -/
def Faithful (h : List (Event Both BothCall)) (e : Event Both BothCall) : Prop :=
  match e.label.call with
  | .copy _ _ => ∀ e' ∈ h, ¬Taken e'
  | .paste id bufferLen => ∀ (i : Fin bufMaxCount) (owner : Int32) (bytes : List CChar),
    id.toNat = i → clip e.pre.real i = some (owner, bytes) →
      (bytes.length ≤ bufferLen.toNat ↔ expectedDecompressedSize bytes ≤ bufferLen)

/-- After a history that cannot tell them apart, the two sides store the same, and the stack of the
real side has the ids of the entries it has given away on top of what is on the other. -/
structure Matching (p : Int32) (h : List (Event Both BothCall)) (b : Both) : Prop where
  quiet : Quiet b.real
  same : ∀ i, clip b.real i = (texts b.sim i).map fun bytes ↦ (p, bytes)
  free : ∃ ids taken, SimInv b.sim ids ∧ FreeIds b.real (ids ++ taken) ∧
    (taken = [] ↔ ∀ e ∈ h, ¬Taken e)

section Step

variable {h : List (Event Both BothCall)} {e : Event Both BothCall} {b b' : Both} {l : BothCall}

theorem same_update {real : Clip} {sim : Fin bufMaxCount → Option (List CChar)}
    (hsame : ∀ k, real k = (sim k).map fun bytes ↦ (p, bytes)) (i : Fin bufMaxCount)
    (v : Option (List CChar)) (k : Fin bufMaxCount) :
    Function.update real i (v.map fun bytes ↦ (p, bytes)) k
      = (Function.update sim i v k).map fun bytes ↦ (p, bytes) := by
  rw [funext hsame]
  exact (Function.apply_update (fun _ ↦ Option.map fun bytes ↦ (p, bytes)) sim i v k).symm

theorem forall_not_taken_append (he : ¬Taken e) :
    (∀ e' ∈ h ++ [e], ¬Taken e') ↔ ∀ e' ∈ h, ¬Taken e' := by
  simp [or_imp, forall_and, he]

theorem Matching.same_state (hM : Matching p h b) (he : ¬Taken e) : Matching p (h ++ [e]) b := by
  obtain ⟨ids, taken, hsim, hfree, htaken⟩ := hM.free
  exact ⟨hM.quiet, hM.same, ids, taken, hsim, hfree, htaken.trans (forall_not_taken_append he).symm⟩

/-- **A copy** agrees as long as nothing has been taken: from then on the real side hands out the id
given back last, and the other side one that it has kept. -/
theorem Matching.copy (hM : Matching p h e.pre) (hcalls : Calls p e.pre e.label e.post)
    {buffer : Memory} {bufferLen : UInt32} (hcall : e.label.call = .copy buffer bufferLen) :
    ((∀ e' ∈ h, ¬Taken e') → Matching p (h ++ [e]) e.post ∧ Agree e.label) ∧
      (Agree e.label → ∀ e' ∈ h, ¬Taken e') := by
  have hnot : ¬Taken e := by
    rintro ⟨id, n, written, hpaste, -⟩
    simp [hcall] at hpaste
  obtain ⟨⟨sim, real⟩, ⟨call, memory, res, res'⟩, ⟨sim', real'⟩⟩ := e
  obtain ⟨hrange, ⟨ancestor, hreal⟩, choice, hrun⟩ := hcalls
  simp only at hcall hrange hreal hrun hM ⊢
  subst hcall
  obtain ⟨ids, taken, hsim, hfree, htaken⟩ := hM.free
  rw [← htaken]
  -- while nothing is taken, both stacks have the same id on top
  rcases List.eq_nil_or_concat' taken with rfl | ⟨taken, j, rfl⟩
  · refine ⟨fun _ ↦ ?_, fun _ ↦ rfl⟩
    rw [List.append_nil] at hfree
    rcases List.eq_nil_or_concat' ids with rfl | ⟨ids, i, rfl⟩
    · obtain ⟨rfl, rfl⟩ := performs_copy_nil hfree hrange hreal
      obtain ⟨rfl, rfl⟩ := of_pure_ok ((hsim.run_copy_nil _ _ _ _).symm.trans hrun)
      exact ⟨hM.same_state hnot, rfl⟩
    · obtain ⟨rfl, hQ', hfree', hclip⟩ := performs_copy hM.quiet hfree hrange hreal
      obtain ⟨rfl, hsim', htexts⟩ := hsim.run_copy hrun
      refine ⟨⟨hQ', fun k ↦ ?_, ids, [], hsim', by rwa [List.append_nil], ?_⟩,
        UInt32.toUInt32_toInt32 _⟩
      · rw [hclip, htexts]
        exact same_update hM.same i (some _) k
      · exact htaken.trans (forall_not_taken_append hnot).symm
  · -- otherwise the real side hands out `j`, which is not on the stack of the other
    refine ⟨fun hnil ↦ by simp at hnil, fun hagree ↦ ?_⟩
    rw [← List.append_assoc] at hfree
    obtain ⟨rfl, -⟩ := performs_copy hM.quiet hfree hrange hreal
    rcases List.eq_nil_or_concat' ids with rfl | ⟨ids, i, rfl⟩
    · obtain ⟨rfl, -⟩ := of_pure_ok ((hsim.run_copy_nil _ _ _ _).symm.trans hrun)
      exact absurd hagree (toNat_neg_one_ne j)
    · obtain ⟨rfl, -⟩ := hsim.run_copy hrun
      have hij : i = j := ofNat_fin_injective ((UInt32.toUInt32_toInt32 _).symm.trans hagree)
      have hnodup := hfree.nodup
      exact absurd hij ((List.nodup_append.mp hnodup).2.2 i (by simp) j (by simp))

theorem Matching.paste_of_none (hM : Matching p h e.pre) (hcalls : Calls p e.pre e.label e.post)
    {id bufferLen : UInt32} (hcall : e.label.call = .paste id bufferLen) (hid : id.toNat = i)
    (hi : texts e.pre.sim i = none) : Matching p (h ++ [e]) e.post ∧ Agree e.label := by
  obtain ⟨⟨sim, real⟩, ⟨call, memory, res, res'⟩, ⟨sim', real'⟩⟩ := e
  obtain ⟨-, ⟨ancestor, hreal⟩, choice, hrun⟩ := hcalls
  simp only at hcall hreal hrun hM hi ⊢
  subst hcall
  obtain ⟨ids, taken, hsim, -⟩ := hM.free
  have hempty : (real.entries i).inUse = .empty := by
    rw [← clip_eq_none_iff]
    exact (hM.same i).trans (by rw [hi]; rfl)
  have hdeny : ¬Grants ancestor p real i bufferLen := fun hgrant ↦ by
    have hused := hgrant.used
    rw [hempty] at hused
    simp at hused
  obtain ⟨rfl, rfl⟩ := ((performs_paste hM.quiet hid hreal).resolve_left fun hg ↦ hdeny hg.1).2
  have hunused : (sim.entries i).inUse ≠ .used := by simp [texts_eq_none_iff.mp hi]
  obtain ⟨rfl, rfl⟩ := of_pure_ok ((hsim.run_paste_refused hid (fun hused ↦ absurd hused hunused)
    choice memory).symm.trans hrun)
  refine ⟨hM.same_state ?_, rfl, rfl⟩
  rintro ⟨id', n, written, -, hzero⟩
  simp at hzero

/-- **A paste** of what is stored agrees if the two checks of its length do. -/
theorem Matching.paste_of_some (hM : Matching p h e.pre) (hcalls : Calls p e.pre e.label e.post)
    {id bufferLen : UInt32} (hcall : e.label.call = .paste id bufferLen) (hid : id.toNat = i)
    {bytes : List CChar} (hi : texts e.pre.sim i = some bytes) :
    ((bytes.length ≤ bufferLen.toNat ↔ expectedDecompressedSize bytes ≤ bufferLen) →
      Matching p (h ++ [e]) e.post ∧ Agree e.label) ∧
    (Agree e.label →
      (bytes.length ≤ bufferLen.toNat ↔ expectedDecompressedSize bytes ≤ bufferLen)) := by
  obtain ⟨⟨sim, real⟩, ⟨call, memory, res, res'⟩, ⟨sim', real'⟩⟩ := e
  obtain ⟨-, ⟨ancestor, hreal⟩, choice, hrun⟩ := hcalls
  simp only at hcall hreal hrun hM hi ⊢
  subst hcall
  obtain ⟨ids, taken, hsim, hfree, htaken⟩ := hM.free
  have hused : (sim.entries i).inUse = .used := by
    cases huse : (sim.entries i).inUse with
    | empty => rw [texts_eq_none_iff.mpr huse] at hi; simp at hi
    | used => rfl
  obtain rfl : sim.heap.contents (sim.entries i).buffer = bytes := by
    rw [texts_of_used hused] at hi
    exact Option.some_inj.mp hi
  have hbinds := hM.quiet.binds_of_clip ((hM.same i).trans (by rw [hi]; rfl))
  -- the owner pastes, so only the announced length can stand in the way
  have hgrants : Grants ancestor p real i bufferLen ↔
      expectedDecompressedSize (sim.heap.contents (sim.entries i).buffer) ≤ bufferLen := by
    rw [← hbinds.decompressedLen]
    exact ⟨Grants.le, fun hle ↦ ⟨hbinds.used, Or.inl hbinds.sourcePid, hle⟩⟩
  rw [← hgrants]
  rcases performs_paste hM.quiet hid hreal with
    ⟨hgrant, rfl, hQ', hclip, hfree'⟩ | ⟨hdeny, rfl, rfl⟩
  · rw [hbinds.contents] at *
    by_cases hle : (sim.heap.contents (sim.entries i).buffer).length ≤ bufferLen.toNat
    · obtain ⟨t', hok, hsim', htexts⟩ := hsim.run_paste hid hused hle choice memory
      obtain ⟨rfl, rfl⟩ := of_pure_ok (hok.symm.trans hrun)
      refine ⟨fun _ ↦ ⟨⟨hQ', fun k ↦ ?_, ids, taken ++ [i], hsim', ?_, ?_⟩, rfl, rfl⟩,
        fun _ ↦ iff_of_true hle hgrant⟩
      · rw [hclip, htexts]
        exact same_update hM.same i none k
      · rw [← List.append_assoc]
        exact hfree' _ hfree
      · refine iff_of_false (by simp) fun hnone ↦ ?_
        exact hnone _ (List.mem_append_right _ List.mem_cons_self) ⟨_, _, _, rfl, rfl⟩
    · obtain ⟨rfl, -⟩ :=
        of_pure_ok ((hsim.run_paste_refused hid (fun _ ↦ hle) choice memory).symm.trans
        hrun)
      exact ⟨fun hiff ↦ absurd (hiff.mpr hgrant) hle, fun hagree ↦ absurd hagree.1 (by decide)⟩
  · have hnot : ∀ pre post l,
      ¬Taken ⟨pre, ⟨.paste id bufferLen, memory, l, .pasted (-1) []⟩, post⟩ := by
      rintro pre post l ⟨id', n, written, -, hzero⟩
      simp at hzero
    by_cases hle : (sim.heap.contents (sim.entries i).buffer).length ≤ bufferLen.toNat
    · obtain ⟨t', hok, -⟩ := hsim.run_paste hid hused hle choice memory
      obtain ⟨rfl, -⟩ := of_pure_ok (hok.symm.trans hrun)
      exact ⟨fun hiff ↦ absurd (hiff.mp hle) hdeny, fun hagree ↦ absurd hagree.1 (by decide)⟩
    · obtain ⟨rfl, rfl⟩ :=
        of_pure_ok ((hsim.run_paste_refused hid (fun _ ↦ hle) choice memory).symm.trans
        hrun)
      exact ⟨fun _ ↦ ⟨hM.same_state (hnot _ _ _), rfl, rfl⟩, fun _ ↦ iff_of_false hle hdeny⟩

/-- One call agrees exactly if it is one that cannot tell the sides apart, and then they go on side
by side. -/
theorem Matching.step (hM : Matching p h e.pre) (hcalls : Calls p e.pre e.label e.post) :
    (Faithful h e → Matching p (h ++ [e]) e.post ∧ Agree e.label) ∧
      (Agree e.label → Faithful h e) := by
  have hrange := hcalls.inRange
  cases hcall : e.label.call with
  | copy buffer bufferLen =>
    rw [Faithful, hcall]
    exact hM.copy hcalls hcall
  | paste id bufferLen =>
    rw [hcall] at hrange
    obtain ⟨i, hid⟩ : ∃ i : Fin bufMaxCount, id.toNat = i := ⟨⟨id.toNat, hrange⟩, rfl⟩
    have huniq : ∀ j : Fin bufMaxCount, id.toNat = j → j = i := fun j hj ↦
      Fin.ext (hj.symm.trans hid)
    rw [Faithful, hcall]
    cases hi : texts e.pre.sim i with
    | none =>
      have hnone : clip e.pre.real i = none := (hM.same i).trans (by rw [hi]; rfl)
      refine ⟨fun _ ↦ hM.paste_of_none hcalls hcall hid hi, fun _ j owner bytes hj hbound ↦ ?_⟩
      rw [huniq j hj, hnone] at hbound
      simp at hbound
    | some bytes =>
      have hsome : clip e.pre.real i = some (p, bytes) := (hM.same i).trans (by rw [hi]; rfl)
      obtain ⟨hgood, hbad⟩ := hM.paste_of_some hcalls hcall hid hi
      refine ⟨fun hfaithful ↦ hgood (hfaithful i p bytes hid hsome),
        fun hagree j owner bytes' hj hbound ↦ ?_⟩
      rw [huniq j hj, hsome, Option.some_inj, Prod.mk.injEq] at hbound
      rw [← hbound.2]
      exact hbad hagree

theorem Matching.completes (hM : Matching p h b) (hp : 0 < p) {c : LibCall} (hrange : InRange c)
    (ancestor : Int32 → Int32 → Bool) {env : Env} (hfd : 0 ≤ env.fd) (locals : Locals)
    (choice : Option Addr) (memory : Memory)
    (hmem : ∀ buffer bufferLen, c = .copy buffer bufferLen →
      b.real.heap.Succeeds env.choice ∧ b.sim.heap.Succeeds choice) :
    (∃ r s', exec (handle ancestor env p) (c.program locals) b.real = .ok (r, s')) ∧
      ∃ r t', run choice memory c b.sim = .ok (r, t') := by
  obtain ⟨ids, taken, hsim, -⟩ := hM.free
  cases c with
  | copy buffer bufferLen =>
    obtain ⟨hreal, hsimulated⟩ := hmem buffer bufferLen rfl
    obtain ⟨r, s', hexec, -⟩ :=
      (completes_copy hM.quiet hp hfd buffer bufferLen locals).resolve_right
      fun hbad ↦ hbad.1 hreal
    refine ⟨⟨r, s', hexec⟩, ?_⟩
    rcases List.eq_nil_or_concat' ids with rfl | ⟨ids, i, rfl⟩
    · exact ⟨_, _, hsim.run_copy_nil choice memory buffer bufferLen⟩
    · have hlen : bufferLen.toNat ≤ (buffer.bytes bufferLen.toNat).length := by simp
      rcases copyToClipboard_of_freeId hlen hsim.freeId hsim.buffers.null choice with
        ⟨a, heap, hcopy, -⟩ | ⟨hfail, -⟩
      · exact ⟨_, _, bind_ok hcopy _⟩
      · exact absurd hsimulated hfail
  | paste id bufferLen =>
    obtain ⟨r, s', hexec, -⟩ := completes_paste ancestor env hM.quiet hp hfd id bufferLen locals
    refine ⟨⟨r, s', hexec⟩, ?_⟩
    -- a paste needs no memory
    obtain ⟨i, hid⟩ : ∃ i : Fin bufMaxCount, id.toNat = i := ⟨⟨id.toNat, hrange⟩, rfl⟩
    by_cases hfits : (b.sim.entries i).inUse = .used ∧
        (b.sim.heap.contents (b.sim.entries i).buffer).length ≤ bufferLen.toNat
    · obtain ⟨t', hrun, -⟩ := hsim.run_paste hid hfits.1 hfits.2 choice memory
      exact ⟨_, t', hrun⟩
    · exact ⟨_, _, hsim.run_paste_refused hid (fun hused hle ↦ hfits ⟨hused, hle⟩) choice memory⟩

end Step

/-- Both sides after `clipboard_init`. -/
def start (addr addr' : Addr) : Both := ⟨initial addr, Driver.initial addr'⟩

theorem matching_start {addr addr' : Addr} (ha : Stack.Fits addr) (ha' : Stack.Fits addr')
    (p : Int32) : Matching p [] (start addr addr') where
  quiet := quiet_initial ha'
  same _ := rfl
  free := ⟨_, [], simInv_initial ha, by
    rw [List.append_nil]
    exact Driver.freeIds_initial ha', by simp⟩

/-- **The simulated clipboard and the real one** give the same answers to a sequence of calls
exactly if no copy comes after a paste that took an entry, and every paste of a stored entry has a
buffer that is long enough for its bytes if and only if it is for the bytes announced. As long as
they do, both return from every call. -/
theorem agree_iff {addr addr' : Addr} (ha : Stack.Fits addr) (ha' : Stack.Fits addr') (hp : 0 < p)
    {h : List (Event Both BothCall)} {b : Both} (hrun : Run (Calls p) (start addr addr') h b) :
    ((∀ e ∈ h, Agree e.label) ↔
      ∀ (j : ℕ) (e : Event Both BothCall), h[j]? = some e → Faithful (h.take j) e) ∧
    ((∀ e ∈ h, Agree e.label) → ∀ (c : LibCall) (ancestor : Int32 → Int32 → Bool) (env : Env)
      (locals : Locals) (choice : Option Addr) (memory : Memory), InRange c → 0 ≤ env.fd →
      (∀ buffer bufferLen, c = .copy buffer bufferLen →
        b.real.heap.Succeeds env.choice ∧ b.sim.heap.Succeeds choice) →
      (∃ r s', exec (handle ancestor env p) (c.program locals) b.real = .ok (r, s')) ∧
        ∃ r t', run choice memory c b.sim = .ok (r, t')) := by
  obtain ⟨hiff, hmatching⟩ := hrun.forall_iff (I := Matching p) (P := fun e ↦ Agree e.label)
    (matching_start ha ha' p) (fun h e hM hcalls ↦ (hM.step hcalls).1)
    fun h e hM hcalls ↦ (hM.step hcalls).2
  refine ⟨hiff, fun hagree c ancestor env locals choice memory hrange hfd hmem ↦ ?_⟩
  exact (hmatching hagree).completes hp hrange ancestor hfd locals choice memory hmem

theorem exists_copy_paste (buffer : Memory) {n : UInt32} (hn : n.toNat ≤ entryLenLimit)
    (bufferLen : UInt32) : ∃ h b, Run (Calls 7) (start 4096 8192) h b ∧
      ∃ e₁ e₂, h = [e₁, e₂] ∧ e₁.label.call = .copy buffer n ∧
        e₂.label.call = .paste 99 bufferLen ∧ (Agree e₂.label → Faithful [e₁] e₂) ∧
        clip e₂.pre.real 99 = some (7, buffer.bytes n.toNat) := by
  have hp : (0 : Int32) < 7 := by decide
  have hfd : 0 ≤ (sampleEnv 8).fd := by decide
  have hfresh : Heap.Succeeds (fun _ ↦ none : CHeap) (some 8) := ⟨8, rfl, by decide, rfl⟩
  have hM := matching_start (show Stack.Fits 4096 by decide) (show Stack.Fits 8192 by decide) 7
  obtain ⟨⟨r, s, hexec⟩, r', t, hrun⟩ := @Matching.completes _ _ _ hM hp (.copy buffer n) hn
    (fun _ _ ↦ false) _ hfd zeroLocals (some 8) (fun _ ↦ 0) fun _ _ _ ↦ ⟨hfresh, hfresh⟩
  have hcopy : Calls 7 (start 4096 8192) ⟨.copy buffer n, fun _ ↦ 0, r', r⟩ ⟨t, s⟩ :=
    ⟨hn, ⟨_, hp, _, _, hfd, hexec⟩, _, hrun⟩
  have hM' := ((hM.step (e := ⟨_, _, _⟩) hcopy).1 (fun _ he ↦ absurd he (by simp))).1
  have hids := Driver.freeIds_initial (show Stack.Fits 8192 by decide)
  rw [show List.finRange bufMaxCount = (List.finRange 99).map Fin.castSucc ++ [99] from
    List.finRange_succ_last] at hids
  obtain ⟨-, -, -, hclip⟩ := performs_copy hM.quiet hids hn hcopy.real.choose_spec
  obtain ⟨⟨r₂, s₂, hexec₂⟩, r₂', t₂, hrun₂⟩ :=
    @Matching.completes _ _ _ hM' hp (.paste 99 bufferLen)
    (show (99 : UInt32).toNat < bufMaxCount by decide) (fun _ _ ↦ false) _ hfd zeroLocals none
    (fun _ ↦ 0) fun _ _ hcall ↦ by simp at hcall
  have hpaste : Calls 7 ⟨t, s⟩ ⟨.paste 99 bufferLen, fun _ ↦ 0, r₂', r₂⟩ ⟨t₂, s₂⟩ :=
    ⟨show (99 : UInt32).toNat < bufMaxCount by decide, ⟨_, hp, _, _, hfd, hexec₂⟩, _, hrun₂⟩
  refine ⟨_, _, (Run.nil.snoc hcopy).snoc hpaste, _, _, rfl, rfl, rfl,
    (hM'.step (e := ⟨_, _, _⟩) hpaste).2, ?_⟩
  rw [hclip]
  exact Function.update_self ..

/-- Process 7 copies a byte and pastes it, on both sides. -/
theorem agree_iff_sample : ∃ h b, Run (Calls 7) (start 4096 8192) h b ∧
    h.map (fun e ↦ e.label.call) = [.copy (fun _ ↦ 65) 1, .paste 99 1] ∧
    ((∀ e ∈ h, Agree e.label) ↔
      ∀ (j : ℕ) (e : Event Both BothCall), h[j]? = some e → Faithful (h.take j) e) := by
  obtain ⟨h, b, hrun, e₁, e₂, rfl, hcopy, hpaste, -⟩ :=
    exists_copy_paste (fun _ ↦ 65) (n := 1) (by decide) 1
  exact ⟨_, b, hrun, by simp [hcopy, hpaste],
    (agree_iff (by decide) (by decide) (by decide) hrun).1⟩

/-- The bytes `a1` take two bytes and announce one. -/
theorem not_agree : ¬∀ (addr addr' : Addr) (p : Int32) (h : List (Event Both BothCall)) (b : Both),
    Stack.Fits addr → Stack.Fits addr' → 0 < p → Run (Calls p) (start addr addr') h b →
    ∀ e ∈ h, Agree e.label := by
  intro hclaim
  obtain ⟨h, b, hrun, e₁, e₂, rfl, -, hpaste, hfaithful, hclip⟩ :=
    exists_copy_paste (fun k ↦ if k = 0 then 97 else 49) (n := 2) (by decide) 1
  have hiff := hfaithful
    (hclaim 4096 8192 7 _ b (by decide) (by decide) (by decide) hrun e₂ (by simp))
  rw [Faithful, hpaste] at hiff
  have hlen := (hiff 99 7 _ rfl hclip).mpr (by decide)
  rw [Memory.length_bytes] at hlen
  exact absurd hlen (by decide)

end Simulated

end MinixClipboard
