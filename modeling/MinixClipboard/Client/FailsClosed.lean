import MinixClipboard.Client.Linked
import MinixClipboard.Client.Refines

/-!
# Failing closed

A paste that is not sure to be allowed should not lock, and one that did not succeed should not look
as if it had. All its tests but one look at the sign of an answer. The one that asks for permission
does not: `check_if_ancestor` returns the result of `_syscall` as a `uint8_t`, and the caller looks
whether that is 0. So the -1 of a system call that failed, 255 by then, is a permission.

Nothing else goes wrong: a paste fails closed exactly when the process manager's answer is 1 or is 0
in its low byte, and these are the answers the process manager gives when the call comes through.
-/

namespace MinixClipboard

open Program Fallible

/-- A call that has failed. Nobody asks whether closing did. -/
def Fails : Answered → Prop
  | ⟨.openDevice, fd⟩ => fd < 0
  | ⟨.read _ _ _, x⟩ => x.1 < 0
  | ⟨.write _ _ _, a⟩ => a < 0
  | ⟨.checkAncestor _ _, a⟩ => a < 0
  | ⟨.close _, _⟩ => False
  | ⟨.getpid, _⟩ => False

/-- Every call that a paste needs has been made, and none has failed. -/
structure AllSucceed (id : UInt32) (tr : List Answered) : Prop where
  openDevice : ∃ fd, ⟨.openDevice, fd⟩ ∈ tr
  query : ∃ fd mg x, ⟨.read fd mg (encodeId id), x⟩ ∈ tr
  ancestor : ∃ p q ret, ⟨.checkAncestor p q, ret⟩ ∈ tr
  lock : ∃ fd msg ret, ⟨.write fd msg lockSize, ret⟩ ∈ tr
  get : ∃ fd mg pid x, ⟨.read fd mg (encodePid pid), x⟩ ∈ tr
  not_fails : ∀ c ∈ tr, ¬Fails c

/-- What a paste may do that made these calls and returned this. -/
structure FailsClosed (id : UInt32) (tr : List Answered) (ret : UInt32) (written : List CChar) :
    Prop where
  /-- The lock is asked for only if the process manager answered 1. -/
  permitted : ∀ fd msg x, (⟨.write fd msg lockSize, x⟩ : Answered) ∈ tr →
    ∃ p q, (⟨.checkAncestor p q, (1 : Int32)⟩ : Answered) ∈ tr
  /-- It returns 0 or writes only if everything succeeded. -/
  succeeded : ret = 0 ∨ written ≠ [] → AllSucceed id tr

/-- The answers of the process manager that its caller takes for what they are. -/
def Understood (tr : List Answered) : Prop :=
  ∀ p q a, (⟨.checkAncestor p q, a⟩ : Answered) ∈ tr → a = 1 ∨ toUint8 a = 0

theorem toUInt32_ne_zero_of_neg {x : Int32} (hx : x < 0) : x.toUInt32 ≠ 0 := by
  intro hzero
  obtain rfl : x = 0 := by
    cases x
    exact congrArg Int32.ofUInt32 hzero
  exact absurd hx (by decide)

namespace PasteAnswers

variable {x : PasteAnswers} {id bufferLen : UInt32} {locals : Locals}

theorem mem_trace_checkAncestor {p q a : Int32} :
    (⟨.checkAncestor p q, a⟩ : Answered) ∈ x.trace id bufferLen locals ↔
      0 ≤ x.fd ∧ id.toNat < bufMaxCount ∧ 0 ≤ x.sourcePid.1 ∧
        (p = x.sourcePid.1 ∧ q = x.lockingPid) ∧ a = x.ancestor := by
  simp [trace]

theorem mem_trace_lock {fd ret : Int32} {msg : WriteMsg} :
    (⟨.write fd msg lockSize, ret⟩ : Answered) ∈ x.trace id bufferLen locals ↔
      0 ≤ x.fd ∧ id.toNat < bufMaxCount ∧ 0 ≤ x.sourcePid.1 ∧ toUint8 x.ancestor ≠ 0 ∧
        (fd = x.fd ∧
          msg = (⟨x.lockingPid.toUInt32, id, bufferLen⟩ : LockMsg).toWrite locals.buffer) ∧
          ret = x.lock := by
  simp [trace]

theorem understood_iff : Understood (x.trace id bufferLen locals) ↔
    (0 ≤ x.fd → id.toNat < bufMaxCount → 0 ≤ x.sourcePid.1 →
      x.ancestor = 1 ∨ toUint8 x.ancestor = 0) := by
  constructor
  · intro h hfd hid hsrc
    exact h _ _ _ (mem_trace_checkAncestor.mpr ⟨hfd, hid, hsrc, ⟨rfl, rfl⟩, rfl⟩)
  · intro h p q a hmem
    obtain ⟨hfd, hid, hsrc, -, rfl⟩ := mem_trace_checkAncestor.mp hmem
    exact h hfd hid hsrc

/-- Success is reported at the end alone: before, what is returned is negative as an `int`. -/
theorem of_result {ret : UInt32} {written : List CChar}
    (hresult : .pasted ret written = x.result id) (h : ret = 0 ∨ written ≠ []) :
    0 ≤ x.fd ∧ id.toNat < bufMaxCount ∧ 0 ≤ x.sourcePid.1 ∧ toUint8 x.ancestor ≠ 0 ∧
      0 ≤ x.lock ∧ 0 ≤ x.get.1 := by
  have hrefused : ∀ {r : UInt32}, r ≠ 0 → Result.pasted ret written ≠ .pasted r [] := by
    rintro r hr ⟨⟩
    exact h.elim hr fun hne ↦ hne rfl
  rw [result] at hresult
  by_cases hfd : x.fd < 0
  · exact absurd (hresult.trans (if_pos hfd)) (hrefused (by decide))
  rw [if_neg hfd] at hresult
  by_cases hid : id.toNat ≥ bufMaxCount
  · exact absurd (hresult.trans (if_pos hid)) (hrefused (by decide))
  rw [if_neg hid] at hresult
  by_cases hsrc : x.sourcePid.1 < 0
  · exact absurd (hresult.trans (if_pos hsrc)) (hrefused (by decide))
  rw [if_neg hsrc] at hresult
  by_cases ha : toUint8 x.ancestor = 0
  · exact absurd (hresult.trans (if_pos ha)) (hrefused (by decide))
  rw [if_neg ha] at hresult
  by_cases hlock : x.lock < 0
  · exact absurd (hresult.trans (if_pos hlock)) (hrefused (toUInt32_ne_zero_of_neg hlock))
  rw [if_neg hlock] at hresult
  by_cases hget : x.get.1 < 0
  · exact absurd (hresult.trans (if_pos hget)) (hrefused (toUInt32_ne_zero_of_neg hget))
  exact ⟨Int32.not_lt.mp hfd, Nat.not_le.mp hid, Int32.not_lt.mp hsrc, ha, Int32.not_lt.mp hlock,
    Int32.not_lt.mp hget⟩

theorem allSucceed (hopen : 0 ≤ x.fd ∧ id.toNat < bufMaxCount ∧ 0 ≤ x.sourcePid.1)
    (ha : x.ancestor = 1) (hlock : 0 ≤ x.lock) (hget : 0 ≤ x.get.1) :
    AllSucceed id (x.trace id bufferLen locals) := by
  have htrace : x.trace id bufferLen locals =
      [⟨.openDevice, x.fd⟩, ⟨.read x.fd locals.mg (encodeId id), x.sourcePid⟩,
        ⟨.getpid, x.lockingPid⟩, ⟨.checkAncestor x.sourcePid.1 x.lockingPid, x.ancestor⟩,
        ⟨.write x.fd ((⟨x.lockingPid.toUInt32, id, bufferLen⟩ : LockMsg).toWrite locals.buffer)
          lockSize, x.lock⟩,
        ⟨.read x.fd x.sourcePid.2.zeroed (encodePid x.lockingPid.toUInt32), x.get⟩,
        ⟨.close x.fd, x.closed⟩] := by
    have hone : toUint8 x.ancestor ≠ 0 := by rw [ha]; decide
    obtain ⟨hfd, hid, hsrc⟩ := hopen
    rw [trace, if_neg (Int32.not_lt.mpr hfd), if_neg (Nat.not_le.mpr hid),
      if_neg (Int32.not_lt.mpr hsrc), if_neg hone, if_neg (Int32.not_lt.mpr hlock),
      if_neg (Int32.not_lt.mpr hget)]
  rw [htrace]
  refine ⟨⟨x.fd, by simp⟩, ⟨x.fd, locals.mg, x.sourcePid, by simp⟩,
    ⟨x.sourcePid.1, x.lockingPid, x.ancestor, by simp⟩, ⟨x.fd, _, x.lock, by simp; rfl⟩,
    ⟨x.fd, x.sourcePid.2.zeroed, x.lockingPid.toUInt32, x.get, by simp⟩, ?_⟩
  simp [Fails, hopen.1, hopen.2.2, hlock, hget, ha]

theorem failsClosed_trace_iff {ret : UInt32} {written : List CChar}
    (hresult : .pasted ret written = x.result id) :
    FailsClosed id (x.trace id bufferLen locals) ret written ↔
      Understood (x.trace id bufferLen locals) := by
  rw [understood_iff]
  refine ⟨fun h hfd hid hsrc ↦ ?_, fun h ↦ ⟨fun fd msg ret hmem ↦ ?_, fun hdone ↦ ?_⟩⟩
  · -- an answer that is taken for a permission is followed by the lock
    by_cases ha : toUint8 x.ancestor = 0
    · exact Or.inr ha
    · obtain ⟨p, q, hone⟩ := h.permitted _ _ _
        (mem_trace_lock.mpr ⟨hfd, hid, hsrc, ha, ⟨rfl, rfl⟩, rfl⟩)
      exact Or.inl (mem_trace_checkAncestor.mp hone).2.2.2.2.symm
  · obtain ⟨hfd, hid, hsrc, ha, -, -⟩ := mem_trace_lock.mp hmem
    have hone := (h hfd hid hsrc).resolve_right ha
    exact ⟨_, _, mem_trace_checkAncestor.mpr ⟨hfd, hid, hsrc, ⟨rfl, rfl⟩, hone.symm⟩⟩
  · obtain ⟨hfd, hid, hsrc, ha, hlock, hget⟩ := of_result hresult hdone
    exact allSucceed ⟨hfd, hid, hsrc⟩ ((h hfd hid hsrc).resolve_right ha) hlock hget

end PasteAnswers

section Paste

variable {id bufferLen ret : UInt32} {locals : Locals} {tr : List Answered} {written : List CChar}

/-- **Failing closed.** Whatever its calls are answered, a paste asks for the lock and reports
success as it should exactly when it understands what the process manager answered. -/
theorem failsClosed_iff_understood
    (h : Runs AnyAnswer () ((LibCall.paste id bufferLen).linked locals) tr
      (.pasted ret written) ()) :
    FailsClosed id tr ret written ↔ Understood tr := by
  obtain ⟨x, rfl, hresult⟩ := runs_paste_iff.mp h
  exact PasteAnswers.failsClosed_trace_iff hresult

/-- The answers to a paste of entry 99 by process 9, where the call of the process manager fails. -/
def failedCheck : PasteAnswers :=
  ⟨3, (7, ⟨0, 0, fun _ ↦ 0⟩), 9, -1, 0, (0, ⟨1, 1, fun _ ↦ 65⟩), 0⟩

theorem failsClosed_iff_understood_failedCheck :
    FailsClosed 99 (failedCheck.trace 99 1 zeroLocals) 0 [65] ↔
      Understood (failedCheck.trace 99 1 zeroLocals) :=
  failsClosed_iff_understood (runs_paste failedCheck)

/-- It locks the entry of process 7 and is given it. -/
theorem not_failsClosed_failedCheck :
    Runs AnyAnswer () ((LibCall.paste 99 1).linked zeroLocals) (failedCheck.trace 99 1 zeroLocals)
      (.pasted 0 [65]) () ∧
    ⟨.checkAncestor 7 9, -1⟩ ∈ failedCheck.trace 99 1 zeroLocals ∧
    ¬FailsClosed 99 (failedCheck.trace 99 1 zeroLocals) 0 [65] := by
  refine ⟨runs_paste failedCheck, PasteAnswers.mem_trace_checkAncestor.mpr ?_, fun h ↦ ?_⟩
  · exact ⟨by decide, by decide, by decide, ⟨rfl, rfl⟩, rfl⟩
  · rw [PasteAnswers.failsClosed_trace_iff rfl, PasteAnswers.understood_iff] at h
    exact absurd (h (by decide) (by decide) (by decide)) (by decide)

end Paste

/-! ## A process that has the device for itself -/

section Alone

variable {nrProcs : ℕ} {inUse : UInt32} {mproc : Fin nrProcs → Pm.Mproc} {env : Env} {pid : Int32}
  {id bufferLen ret : UInt32} {locals : Locals} {written : List CChar} {s s' : Driver}

/-- The process manager's own answers are understood, so where its call comes through a paste fails
closed. -/
theorem exists_failsClosed_of_exec (t : Pm.Tree inUse mproc)
    (h : exec (kernel (pmAnswer inUse mproc) env pid) ((LibCall.paste id bufferLen).linked locals) s
      = .ok (.pasted ret written, s')) :
    ∃ tr, Runs (fun s op x s' ↦ kernel (pmAnswer inUse mproc) env pid op s = .ok (x, s')) s
      ((LibCall.paste id bufferLen).linked locals) tr (.pasted ret written) s' ∧
      FailsClosed id tr ret written := by
  obtain ⟨tr, hruns⟩ := runs_of_exec h
  have hany : Runs AnyAnswer () ((LibCall.paste id bufferLen).linked locals) tr
      (.pasted ret written) () := hruns.mono (fun _ ↦ ()) fun _ _ _ _ _ ↦ trivial
  obtain ⟨x, rfl, hresult⟩ := runs_paste_iff.mp hany
  refine ⟨_, hruns, (PasteAnswers.failsClosed_trace_iff hresult).mpr fun p q a hmem ↦ ?_⟩
  obtain ⟨u, u', hanswer⟩ := hruns.mem hmem
  obtain ⟨rfl, -⟩ := of_pure_ok hanswer
  obtain ⟨hone, hzero⟩ := Pm.doCheckIfAncestor_eq t p q
  by_cases habove : Pm.AncestorOrSelf t p q
  · left
    rw [pmAnswer, hone habove]
  · right
    rw [pmAnswer, hzero habove]
    rfl

end Alone

end MinixClipboard
