import MinixClipboard.Client.Refines

/-!
# Reads of length zero

A client asks who owns an entry by a read whose length is the id, and so asks about entry `0` by a
read of no bytes. The virtual file system between the client and the driver does not forward such a
read: it answers `0` itself, as every read of no bytes is answered. The client takes the answer for
a process id.

This file follows the library functions on that system. Between complete calls nothing changes
(`performs_effect`): a call has the effect it should have, or none. What changes is who may paste
entry `0`. It is handed out last, by the copy that fills the table (`handedOut_zero`).
-/

namespace MinixClipboard

open Fallible Program Driver

variable {ancestor : Int32 → Int32 → Bool} {env : Env} {addr : Addr} {p : Int32} {s s' : Driver}
  {i : Fin bufMaxCount}

/-! ## The virtual file system -/

/-- What process `pid` is answered, where the file system answers reads of no bytes. -/
def handleVfs (ancestor : Int32 → Int32 → Bool) (env : Env) (pid : Int32) :
    (op : SysCall) → DriverM op.Answer
  | .read fd mg size =>
    if size = 0 then return ((0 : Int32), mg) else handle ancestor env pid (.read fd mg size)
  | .openDevice => handle ancestor env pid .openDevice
  | .close fd => handle ancestor env pid (.close fd)
  | .write fd msg size => handle ancestor env pid (.write fd msg size)
  | .checkIfAncestor pid₁ pid₂ => handle ancestor env pid (.checkIfAncestor pid₁ pid₂)
  | .getpid => handle ancestor env pid .getpid

theorem handleVfs_read_of_ne {size : UInt32} (hsize : size ≠ 0) (fd : Int32) (mg : GetMsg) :
    handleVfs ancestor env p (.read fd mg size) = handle ancestor env p (.read fd mg size) :=
  if_neg hsize

theorem encodePid_ne_zero (hp : 0 ≤ p) : encodePid p.toUInt32 ≠ 0 := by
  intro h
  have hlt : p.toUInt32.toNat < 2 ^ 31 := by
    rw [Int32.toNat_toUInt32_of_le hp]
    exact p.toNatClampNeg_lt
  have hquery := isPidQuery_encodePid hlt
  rw [h] at hquery
  exact absurd hquery (by decide)

theorem exec_vfs_pasteLock (hp : 0 ≤ p) (id bufferLen : UInt32) (locals : Locals) (fd : Int32)
    (mg : GetMsg) :
    exec (handleVfs ancestor env p) (pasteLock id bufferLen locals fd p mg)
      = exec (handle ancestor env p) (pasteLock id bufferLen locals fd p mg) := by
  refine exec_call_congr rfl fun ret ↦ ?_
  split
  · rfl
  refine exec_call_congr (handleVfs_read_of_ne (encodePid_ne_zero hp) fd _) fun x ↦ ?_
  split
  · rfl
  · exact exec_call_congr rfl fun _ ↦ rfl

theorem exec_vfs_pasteCheck (hp : 0 ≤ p) (id bufferLen : UInt32) (locals : Locals) (fd src : Int32)
    (mg : GetMsg) :
    exec (handleVfs ancestor env p) (pasteCheck id bufferLen locals fd src mg p)
      = exec (handle ancestor env p) (pasteCheck id bufferLen locals fd src mg p) := by
  refine exec_call_congr rfl fun permitted ↦ ?_
  split
  · rfl
  · exact exec_vfs_pasteLock hp id bufferLen locals fd mg

theorem exec_vfs_copy (buffer : Memory) (bufferLen : UInt32) (locals : Locals) :
    exec (handleVfs ancestor env p) ((LibCall.copy buffer bufferLen).program locals)
      = exec (handle ancestor env p) ((LibCall.copy buffer bufferLen).program locals) := by
  rw [program_copy]
  split
  · rfl
  refine exec_call_congr rfl fun fd ↦ ?_
  split
  · rfl
  exact exec_call_congr rfl fun _ ↦ exec_call_congr rfl fun _ ↦ exec_call_congr rfl fun _ ↦ rfl

/-- A paste of any entry but `0` goes as it would without the file system. -/
theorem exec_vfs_paste_of_ne (hp : 0 ≤ p) {id : UInt32} (hid : id ≠ 0) (bufferLen : UInt32)
    (locals : Locals) :
    exec (handleVfs ancestor env p) ((LibCall.paste id bufferLen).program locals)
      = exec (handle ancestor env p) ((LibCall.paste id bufferLen).program locals) := by
  rw [program_paste]
  refine exec_call_congr rfl fun fd ↦ ?_
  split
  · rfl
  split
  · rfl
  refine exec_call_congr (handleVfs_read_of_ne hid fd _) fun x ↦ ?_
  split
  · rfl
  funext s
  have hgetpid : handleVfs ancestor env p .getpid s = .ok (p, s) := rfl
  rw [pasteGetpid, exec_of_ok handle_getpid, exec_call, bind_ok hgetpid, exec_vfs_pasteCheck hp]

theorem exec_vfs_paste_zero (hp : 0 ≤ p) (hfd : 0 ≤ env.fd) (bufferLen : UInt32) (locals : Locals) :
    exec (handleVfs ancestor env p) ((LibCall.paste 0 bufferLen).program locals) s
      = if Permits ancestor 0 p then
          exec (handle ancestor env p) (pasteLock 0 bufferLen locals env.fd p locals.mg) s
        else .ok (.pasted (-1) [], s) := by
  have hopen : handleVfs ancestor env p .openDevice s = .ok (env.fd, s) := rfl
  have hread : handleVfs ancestor env p (.read env.fd locals.mg (encodeId 0)) s
    = .ok ((0, locals.mg), s) := rfl
  have hgetpid : handleVfs ancestor env p .getpid s = .ok (p, s) := rfl
  have hcheck : handleVfs ancestor env p (.checkIfAncestor 0 p) s
    = .ok (decide (Permits ancestor 0 p), s) := rfl
  rw [program_paste, exec_call, bind_ok hopen, if_neg (Int32.not_lt.mpr hfd), if_neg (by decide),
    pasteQuery, exec_call, bind_ok hread, if_neg (show ¬(0 : Int32) < 0 by decide), pasteGetpid,
    exec_call, bind_ok hgetpid, pasteCheck, exec_call, bind_ok hcheck]
  by_cases hperm : Permits ancestor 0 p
  · rw [if_pos hperm, if_neg (by simpa using hperm), exec_vfs_pasteLock hp]
  · rw [if_neg hperm, if_pos (by simpa using hperm)]
    rfl

/-! ## What a call does, right or wrong -/

/-- What a library function returns when it does nothing. -/
def LibCall.refusal : LibCall → Result
  | .copy _ _ => .copied (-1)
  | .paste _ _ => .pasted (-1) []

/-- The effects of library calls, with nothing said of when a paste is refused. -/
inductive ClipEffect : Clip → Int32 × LibCall × Result → Clip → Prop
  | copy {m : Clip} {p : Int32} {buffer : Memory} {bufferLen : UInt32} (i : Fin bufMaxCount) :
      m i = none → ClipEffect m (p, .copy buffer bufferLen, .copied (UInt32.ofNat i.val))
        (Function.update m i (some (p, buffer.bytes bufferLen.toNat)))
  | paste {m : Clip} {p owner : Int32} {id bufferLen : UInt32} {i : Fin bufMaxCount}
      {bytes : List CChar} : id.toNat = i → m i = some (owner, bytes) →
        ClipEffect m (p, .paste id bufferLen, .pasted 0 bytes) (Function.update m i none)
  | refused {m : Clip} {p : Int32} {c : LibCall} : ClipEffect m (p, c, c.refusal) m

theorem ClipStep.effect {m m' : Clip} {l : Int32 × LibCall × Result}
    (h : ClipStep ancestor m l m') : ClipEffect m l m' := by
  cases h with
  | copy i _ hi => exact .copy i hi
  | full | long => exact .refused (c := .copy _ _)
  | paste hid hi => exact .paste hid hi
  | refused => exact .refused (c := .paste _ _)

/-- A complete library call of a process, on a system that answers empty reads itself. Who is an
ancestor of whom may change from one call to the next. -/
def PerformsVfs (s : Driver) (l : Int32 × LibCall × Result) (s' : Driver) : Prop :=
  0 < l.1 ∧ ∃ ancestor locals env,
    exec (handleVfs ancestor env l.1) (l.2.1.program locals) s = .ok (l.2.2, s')

theorem exec_vfs_of_fd (hfd : env.fd < 0) (c : LibCall) (locals : Locals) :
    exec (handleVfs ancestor env p) (c.program locals) s = .ok (c.refusal, s) := by
  have hopen : handleVfs ancestor env p .openDevice s = .ok (env.fd, s) := rfl
  cases c with
  | copy buffer bufferLen =>
    rw [program_copy]
    split
    · rfl
    · rw [exec_call, bind_ok hopen, if_pos hfd]
      rfl
  | paste id bufferLen =>
    rw [program_paste, exec_call, bind_ok hopen, if_pos hfd]
    rfl

/-- **One call** has one of the effects. -/
theorem performs_effect (hQ : Quiet s) {l : Int32 × LibCall × Result} (h : PerformsVfs s l s') :
    Quiet s' ∧ ClipEffect (clip s) l (clip s') := by
  obtain ⟨p, c, r⟩ := l
  obtain ⟨hp, ancestor, locals, env, hexec⟩ := h
  by_cases hfd : env.fd < 0
  · obtain ⟨rfl, rfl⟩ := of_pure_ok ((exec_vfs_of_fd hfd c locals).symm.trans hexec)
    exact ⟨hQ, .refused⟩
  have hfd := Int32.not_lt.mp hfd
  -- a call that goes as it would without the file system
  have hsame : exec (handle ancestor env p) (c.program locals) s = .ok (r, s') →
      Quiet s' ∧ ClipEffect (clip s) (p, c, r) (clip s') := fun hexec ↦ by
    obtain ⟨hQ', hstep⟩ := @performs_refines ancestor ⟨s, (p, c, r), s'⟩ hQ
      ⟨hp, locals, env, hfd, hexec⟩
    exact ⟨hQ', hstep.effect⟩
  cases c with
  | copy buffer bufferLen =>
    rw [exec_vfs_copy] at hexec
    exact hsame hexec
  | paste id bufferLen =>
    by_cases hid : id = 0
    swap
    · rw [exec_vfs_paste_of_ne (Int32.le_of_lt hp) hid] at hexec
      exact hsame hexec
    subst hid
    simp only [] at hexec
    rw [exec_vfs_paste_zero (Int32.le_of_lt hp) hfd] at hexec
    by_cases hperm : Permits ancestor 0 p
    · rw [if_pos hperm] at hexec
      obtain ⟨hgranted, hdenied⟩ := @exec_pasteLock ancestor env p s 0 hQ hp 0 rfl bufferLen locals
        env.fd locals.mg
      by_cases hgrant : (s.entries 0).inUse = .used ∧ (s.entries 0).decompressedLen ≤ bufferLen
      · obtain ⟨t, hok, hQ', hclip, -⟩ := hgranted hgrant
        obtain ⟨rfl, rfl⟩ := of_pure_ok (hok.symm.trans hexec)
        rw [hclip]
        exact ⟨hQ', .paste rfl (hQ.clip_of_used (by simp [hgrant.1]))⟩
      · obtain ⟨rfl, rfl⟩ := of_pure_ok ((hdenied hgrant).symm.trans hexec)
        exact ⟨hQ, .refused (c := .paste _ _)⟩
    · rw [if_neg hperm] at hexec
      obtain ⟨rfl, rfl⟩ := of_pure_ok hexec
      exact ⟨hQ, .refused (c := .paste _ _)⟩

theorem quiet_of_performsVfs (ha : Stack.Fits addr)
    (hs : Reachable PerformsVfs (initial addr) s) : Quiet s :=
  hs.invariant (quiet_initial ha) fun _ _ _ hQ h ↦ (performs_effect hQ h).1

/-! ## Ids that have been handed out -/

/-- An event that takes the entry of this id. -/
def Pastes (id : UInt32) (e : Event Driver (Int32 × LibCall × Result)) : Prop :=
  ∃ q bufferLen bytes, e.label = (q, .paste id bufferLen, .pasted 0 bytes)

/-- In state `s`, process `p` has the id of what it copied, and nobody has pasted it since. -/
def HandedOut (addr : Addr) (p : Int32) (buffer : Memory) (n id : UInt32) (s : Driver) : Prop :=
  ∃ s₀ s₁ h, Reachable PerformsVfs (initial addr) s₀ ∧
    PerformsVfs s₀ (p, .copy buffer n, .copied id) s₁ ∧ id ≠ -1 ∧
    Run PerformsVfs s₁ h s ∧ ∀ e ∈ h, ¬Pastes id e

theorem ClipEffect.bound {m m' : Clip} {e : Event Driver (Int32 × LibCall × Result)}
    (h : ClipEffect m e.label m') {id : UInt32} (hid : id.toNat = i) (hnot : ¬Pastes id e)
    {x : Int32 × List CChar} (hi : m i = some x) : m' i = some x := by
  obtain ⟨t, l, t'⟩ := e
  cases h with
  | copy j hj =>
    rw [Function.update_of_ne, hi]
    rintro rfl
    rw [hj] at hi
    simp at hi
  | @paste p owner id' bufferLen j bytes hj _ =>
    rw [Function.update_of_ne, hi]
    rintro rfl
    obtain rfl : id' = id := UInt32.toNat_inj.mp (hj.trans hid.symm)
    exact hnot ⟨p, bufferLen, bytes, rfl⟩
  | refused => exact hi

theorem HandedOut.bound (ha : Stack.Fits addr) {buffer : Memory} {n id : UInt32}
    (h : HandedOut addr p buffer n id s) : 0 < p ∧ Quiet s ∧
      ∃ i : Fin bufMaxCount, id.toNat = i ∧ clip s i = some (p, buffer.bytes n.toNat) := by
  obtain ⟨s₀, s₁, h, hs₀, hcopy, hne, hrun, hnot⟩ := h
  obtain ⟨hQ₁, heffect⟩ := performs_effect (quiet_of_performsVfs ha hs₀) hcopy
  obtain ⟨i, hid, hi⟩ : ∃ i : Fin bufMaxCount, id.toNat = i ∧
      clip s₁ i = some (p, buffer.bytes n.toNat) := by
    generalize hm : clip s₁ = m at heffect
    cases heffect with
    | copy i => exact ⟨i, toNat_ofNat_fin i, Function.update_self ..⟩
    | refused => exact absurd rfl hne
  obtain ⟨hQ, hbound⟩ := hrun.invariant_of
    (P := fun s ↦ Quiet s ∧ clip s i = some (p, buffer.bytes n.toNat)) (Q := fun e ↦ ¬Pastes id e)
    ⟨hQ₁, hi⟩ (fun e hpre hnot hstep ↦ by
      obtain ⟨hQ', heffect⟩ := performs_effect hpre.1 hstep
      exact ⟨hQ', heffect.bound hid hnot hpre.2⟩) hnot
  exact ⟨hcopy.1, hQ, i, hid, hbound⟩

/-- A paste of these bytes by process `p` returns `0` and delivers them. -/
def PasteDelivers (ancestor : Int32 → Int32 → Bool) (env : Env) (p : Int32) (id bufferLen : UInt32)
    (locals : Locals) (bytes : List CChar) (s : Driver) : Prop :=
  ∃ s', exec (handleVfs ancestor env p) ((LibCall.paste id bufferLen).program locals) s
    = .ok (.pasted 0 bytes, s')

theorem permits_zero_iff (hp : 0 < p) : Permits ancestor 0 p ↔ ancestor 0 p = true := by
  refine or_iff_right ?_
  rintro rfl
  exact absurd hp (by decide)

/-- Nobody but a descendant of process `0` can paste entry `0`. -/
theorem not_pasteDelivers_zero (hp : 0 < p) (hfd : 0 ≤ env.fd) (hancestor : ¬ancestor 0 p = true)
    (bufferLen : UInt32) (locals : Locals) (bytes : List CChar) :
    ¬PasteDelivers ancestor env p 0 bufferLen locals bytes s := by
  rintro ⟨s', hexec⟩
  rw [exec_vfs_paste_zero (Int32.le_of_lt hp) hfd, if_neg ((permits_zero_iff hp).not.mpr hancestor)]
    at hexec
  simp at hexec

/-- **Every id that is handed out can be pasted** by the process that got it, with a buffer as long
as was announced, exactly if it is not `0`, or process `0` is taken for an ancestor. -/
theorem pasteDelivers_iff (ha : Stack.Fits addr) {buffer : Memory} {n id : UInt32}
    (h : HandedOut addr p buffer n id s) (ancestor : Int32 → Int32 → Bool) (hfd : 0 ≤ env.fd)
    {bufferLen : UInt32} (hle : expectedDecompressedSize (buffer.bytes n.toNat) ≤ bufferLen)
    (locals : Locals) :
    PasteDelivers ancestor env p id bufferLen locals (buffer.bytes n.toNat) s ↔
      id ≠ 0 ∨ ancestor 0 p = true := by
  obtain ⟨hp, hQ, i, hid, hbound⟩ := h.bound ha
  by_cases hzero : id = 0
  · subst hzero
    rw [or_iff_right (not_not_intro rfl)]
    refine ⟨fun hdel ↦ ?_, fun hancestor ↦ ?_⟩
    · by_contra hancestor
      exact not_pasteDelivers_zero hp hfd hancestor bufferLen locals _ hdel
    · have hbinds := hQ.binds_of_clip hbound
      obtain ⟨s', hexec, -⟩ := (exec_pasteLock ancestor env hQ hp hid bufferLen locals env.fd
        locals.mg).1 ⟨hbinds.used, by rw [hbinds.decompressedLen]; exact hle⟩
      rw [hbinds.contents] at hexec
      rw [PasteDelivers, exec_vfs_paste_zero (Int32.le_of_lt hp) hfd,
        if_pos ((permits_zero_iff hp).mpr hancestor)]
      exact ⟨s', hexec⟩
  · refine iff_of_true ?_ (Or.inl hzero)
    rw [PasteDelivers, exec_vfs_paste_of_ne (Int32.le_of_lt hp) hzero]
    obtain ⟨r, s', hexec, -, hstep⟩ := completes_paste ancestor env hQ hp hfd id bufferLen locals
    rcases hstep.of_paste hid hbound with rfl | hnot
    · exact ⟨s', hexec⟩
    · exact absurd hle (hnot (Or.inl rfl))

set_option maxRecDepth 10000 in
/-- Process 7 copies two bytes, and can paste them. -/
theorem pasteDelivers_iff_sample : ∃ s, HandedOut 4096 7 (fun _ ↦ 65) 2 99 s ∧
    (PasteDelivers (fun _ _ ↦ false) (sampleEnv 16) 7 99 2 zeroLocals
      (Memory.bytes (fun _ ↦ 65) 2) s ↔
      (99 : UInt32) ≠ 0 ∨ false = true) := by
  have hcopy : PerformsVfs (initial 4096) (7, .copy (fun _ ↦ 65) 2, .copied 99) _ :=
    ⟨by decide, fun _ _ ↦ false, zeroLocals, sampleEnv 8, rfl⟩
  have hhanded : HandedOut 4096 7 (fun _ ↦ 65) 2 99 _ :=
    ⟨_, _, [], .refl, hcopy, by decide, .nil, by simp⟩
  exact ⟨_, hhanded, pasteDelivers_iff (show Stack.Fits 4096 by decide) hhanded (fun _ _ ↦ false)
    (show 0 ≤ (sampleEnv 16).fd by decide) (by decide) zeroLocals⟩

/-! ## Filling the table -/

/-- Descriptor 3, and no memory. -/
def fullHeap : Env := ⟨3, none, ⟨0, 0, fun _ ↦ 0⟩, fun _ ↦ 0⟩

theorem performs_empty_copy {ids : List (Fin bufMaxCount)} (hids : FreeIds s (ids ++ [i])) :
    ∃ s', PerformsVfs s (7, .copy (fun _ ↦ 0) 0, .copied (UInt32.ofNat i.val)) s' ∧
      FreeIds s' ids ∧ s'.heap = s.heap := by
  obtain ⟨msg, hmsg⟩ : ∃ msg, msg = (fullHeap.copyFrom
    (copyMsg 7 (fun _ ↦ 0) 0 zeroLocals).toWrite).set := ⟨_, rfl⟩
  have hset : doClipboardSet msg fullHeap.choice s
      = .ok ((i : ℕ), (s.withStack s.availableEntries.pop).stored i msg 0 s.heap) :=
    hids.doClipboardSet_of_some (by rw [hmsg]; rfl) (if_pos (by rw [hmsg]; rfl))
  refine ⟨_, ⟨show (0 : Int32) < 7 by decide, fun _ _ ↦ false, zeroLocals, fullHeap, ?_⟩,
    @Driver.FreeIds.stored _ _ msg 0 s.heap _ hids, rfl⟩
  rw [hmsg] at hset
  simp only []
  rw [exec_vfs_copy, exec_copy_eq (by decide) (by decide), bind_ok hset, toUInt32_ofInt_fin, hmsg]
  rfl

/-- Copies of no bytes use up the ids down to the lowest on the stack. -/
theorem exists_last_free {ids : List (Fin bufMaxCount)}
    (hs : Reachable PerformsVfs (initial addr) s)
    (hids : FreeIds s (i :: ids)) :
    ∃ s', Reachable PerformsVfs (initial addr) s' ∧ FreeIds s' [i] ∧ s'.heap = s.heap := by
  induction ids using List.reverseRecOn generalizing s with
  | nil => exact ⟨s, hs, hids, rfl⟩
  | append_singleton ids j ih =>
    obtain ⟨t, hcopy, hids', hheap⟩ := @performs_empty_copy _ _ (i :: ids) hids
    obtain ⟨s', hs', hlast, hheap'⟩ := ih (hs.next hcopy) hids'
    exact ⟨s', hs', hlast, hheap'.trans hheap⟩

theorem handedOut_zero : ∃ s, HandedOut 4096 7 (fun _ ↦ 65) 1 0 s := by
  have ha : Stack.Fits 4096 := by decide
  have hids := freeIds_initial ha
  rw [show List.finRange bufMaxCount = 0 :: (List.finRange 99).map Fin.succ from
    List.finRange_succ] at hids
  obtain ⟨s₀, hs₀, hlast, hheap⟩ := exists_last_free .refl hids
  have hQ := quiet_of_performsVfs ha hs₀
  have hfd : 0 ≤ (sampleEnv 8).fd := by decide
  rcases exec_copy (fun _ _ ↦ false) 7 hQ.inv hfd (fun _ ↦ 65) 1 zeroLocals with
    ⟨hlong, -⟩ | ⟨-, ⟨hfull, -⟩ | ⟨i, hi, ⟨a, s₁, hcopy, -⟩ | ⟨hfail, -⟩⟩⟩
  · exact absurd hlong (by decide)
  · exact absurd ((hlast.mem_iff 0).mp (List.mem_singleton_self 0)) (hfull 0)
  · obtain rfl : i = 0 := List.mem_singleton.mp ((hlast.mem_iff i).mpr hi)
    rw [← exec_vfs_copy] at hcopy
    exact ⟨s₁, s₀, s₁, [], hs₀, ⟨by decide, _, _, _, hcopy⟩, by decide, .nil, by simp⟩
  · rw [hheap] at hfail
    exact absurd ⟨8, rfl, by decide, rfl⟩ hfail

/-- The process that got entry `0` for its byte cannot paste it. -/
theorem not_pasteDelivers :
    ¬∀ (addr : Addr) (p : Int32) (buffer : Memory) (n id : UInt32) (s : Driver)
    (ancestor : Int32 → Int32 → Bool) (env : Env) (bufferLen : UInt32) (locals : Locals),
    Stack.Fits addr → HandedOut addr p buffer n id s → 0 ≤ env.fd →
    expectedDecompressedSize (buffer.bytes n.toNat) ≤ bufferLen →
    PasteDelivers ancestor env p id bufferLen locals (buffer.bytes n.toNat) s := by
  intro hclaim
  obtain ⟨s, hs⟩ := handedOut_zero
  have hfd : 0 ≤ (sampleEnv 16).fd := by decide
  exact not_pasteDelivers_zero (by decide) hfd (by simp) 1 zeroLocals _
    (hclaim 4096 7 _ 1 0 s (fun _ _ ↦ false) (sampleEnv 16) 1 zeroLocals (by decide) hs hfd
      (by decide))

end MinixClipboard
