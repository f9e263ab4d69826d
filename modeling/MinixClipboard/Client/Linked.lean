import MinixClipboard.Client.Stages
import MinixClipboard.Library.Trace
import MinixClipboard.Pm.CheckIfAncestor

/-!
# The library functions, linked

`check_if_ancestor` is no system call but a function of the C library, a wrapper of `_syscall` whose
result it narrows to a `uint8_t`. Here the library functions are linked with it: what is left are
the calls a process makes of the kernel, and each of these may have any answer.

A copy and a paste make their calls one after the other and stop early. So what a run of theirs did
is told by the answers it would have got to all of its calls and by how many of them it made:
`runs_copy_iff` and `runs_paste_iff`. Everything said of them later is read off these two.
-/

namespace MinixClipboard

open Program

/-- The calls a process makes of the kernel. -/
inductive KernelCall
  | openDevice
  | close (fd : Int32)
  | read (fd : Int32) (mg : GetMsg) (size : UInt32)
  | write (fd : Int32) (msg : WriteMsg) (size : UInt32)
  /-- `_syscall(PM_PROC_NR, PM_CHECKANCESTOR, &m)`, for the two words of the message. -/
  | checkAncestor (m1i1 m1i2 : Int32)
  | getpid

abbrev KernelCall.Answer : KernelCall → Type
  | .openDevice => Int32
  | .close _ => Int32
  | .read _ _ _ => Int32 × GetMsg
  | .write _ _ _ => Int32
  | .checkAncestor _ _ => Int32
  | .getpid => Int32

abbrev Answered := Σ op, KernelCall.Answer op

/-- The conversion of an `int` to a `uint8_t`. -/
def toUint8 (x : Int32) : UInt8 := x.toUInt32.toUInt8

/-- `check_if_ancestor` of the C library. -/
def checkIfAncestor (pid₁ pid₂ : Int32) : Program KernelCall KernelCall.Answer UInt8 := do
  return toUint8 (← Program.request (KernelCall.checkAncestor pid₁ pid₂))

/-- The C library: the truth value of `check_if_ancestor` is what its caller looks at. -/
def libc : (op : SysCall) → Program KernelCall KernelCall.Answer op.Answer
  | .openDevice => Program.request KernelCall.openDevice
  | .close fd => Program.request (KernelCall.close fd)
  | .read fd mg size => Program.request (KernelCall.read fd mg size)
  | .write fd msg size => Program.request (KernelCall.write fd msg size)
  | .checkIfAncestor pid₁ pid₂ => do return (← checkIfAncestor pid₁ pid₂) != 0
  | .getpid => Program.request KernelCall.getpid

/-- A library call linked with the C library. -/
def LibCall.linked (locals : Locals) (c : LibCall) : Program KernelCall KernelCall.Answer Result :=
  (c.program locals).link libc

/-! ## A process that has the device for itself -/

section Alone

variable {ancestor : Int32 → Int32 → Bool} {pm : Int32 → Int32 → Int32} {env : Env} {pid : Int32}

/-- The answers of the kernel, where the process manager's are `pm`. -/
def kernel (pm : Int32 → Int32 → Int32) (env : Env) (pid : Int32) :
    (op : KernelCall) → DriverM op.Answer
  | .openDevice => handle (fun _ _ ↦ false) env pid .openDevice
  | .close fd => handle (fun _ _ ↦ false) env pid (.close fd)
  | .read fd mg size => handle (fun _ _ ↦ false) env pid (.read fd mg size)
  | .write fd msg size => handle (fun _ _ ↦ false) env pid (.write fd msg size)
  | .checkAncestor pid₁ pid₂ => return pm pid₁ pid₂
  | .getpid => return pid

/-- **Linking.** As long as the process manager answers what the wrapper makes a truth value of, a
linked library call runs as the library call does. -/
theorem exec_linked (hpm : ∀ p q, toUint8 (pm p q) ≠ 0 ↔ Permits ancestor p q) (c : LibCall)
    (locals : Locals) :
    exec (kernel pm env pid) (c.linked locals) =
      exec (handle ancestor env pid) (c.program locals) := by
  rw [LibCall.linked, exec_link]
  congr 1
  funext op
  cases op with
  | checkIfAncestor p q =>
    have hanswer : (toUint8 (pm p q) != 0) = decide (Permits ancestor p q) := by
      rw [Bool.eq_iff_iff, bne_iff_ne, decide_eq_true_iff, hpm]
    change (pure (toUint8 (pm p q) != 0) : DriverM Bool) = _
    rw [hanswer]
    rfl
  | _ => exact exec_request _ _

/-- The answers of a process manager to which the call comes through. -/
def pmAnswer {nrProcs : ℕ} (inUse : UInt32) (mproc : Fin nrProcs → Pm.Mproc) (pid₁ pid₂ : Int32) :
    Int32 :=
  match Pm.doCheckIfAncestor inUse mproc pid₁ pid₂ nrProcs with
  | .ok (some answer) => answer
  | _ => -1

theorem toUint8_pmAnswer_ne_zero_iff {nrProcs : ℕ} {inUse : UInt32} {mproc : Fin nrProcs → Pm.Mproc}
    (t : Pm.Tree inUse mproc) (p q : Int32) :
    toUint8 (pmAnswer inUse mproc p q) ≠ 0 ↔ Pm.AncestorOrSelf t p q := by
  obtain ⟨hone, hzero⟩ := Pm.doCheckIfAncestor_eq t p q
  by_cases habove : Pm.AncestorOrSelf t p q
  · rw [pmAnswer, hone habove]
    exact iff_of_true (by decide) habove
  · rw [pmAnswer, hzero habove]
    exact iff_of_false (by decide) habove

theorem exec_linked_pm {nrProcs : ℕ} {inUse : UInt32} {mproc : Fin nrProcs → Pm.Mproc}
    (t : Pm.Tree inUse mproc) (hancestor : ∀ p q, ancestor p q = true ↔ Pm.AncestorOrSelf t p q)
    (c : LibCall) (locals : Locals) :
    exec (kernel (pmAnswer inUse mproc) env pid) (c.linked locals)
      = exec (handle ancestor env pid) (c.program locals) := by
  refine exec_linked (fun p q ↦ ?_) c locals
  rw [toUint8_pmAnswer_ne_zero_iff t, Permits, hancestor]
  exact ⟨Or.inr, fun h ↦ h.elim (fun hself ↦ Or.inl hself) id⟩

end Alone

/-! ## All answers -/

def AnyAnswer (_ : Unit) (op : KernelCall) (_ : op.Answer) (_ : Unit) : Prop := True

theorem runs_call_any {α : Type} {op : KernelCall} {a : op.Answer}
    {next : op.Answer → Program KernelCall KernelCall.Answer α} {tr : List Answered} {r : α}
    (h : Runs AnyAnswer () (next a) tr r ()) :
    Runs AnyAnswer () (.call op next) (⟨op, a⟩ :: tr) r () :=
  .call trivial h

theorem runs_ite_any {α : Type} {c : Prop} [Decidable c]
    {p : Program KernelCall KernelCall.Answer α} {tr : List Answered} {r r' : α}
    (h : Runs AnyAnswer () p tr r ()) :
    Runs AnyAnswer () (if c then .ret r' else p) (if c then [] else tr)
      (if c then r' else r) () := by
  split
  · exact .ret _ _
  · exact h

/-! ### Copy -/

/-- The answers to the calls of a copy, if it makes them all. -/
structure CopyAnswers where
  fd : Int32
  pid : Int32
  ret : Int32
  closed : Int32

namespace CopyAnswers

variable (x : CopyAnswers) (buffer : Memory) (bufferLen : UInt32) (locals : Locals)

/-- The calls a copy makes that gets these answers. -/
def trace : List Answered :=
  if bufferLen.toNat > entryLenLimit then [] else
  ⟨.openDevice, x.fd⟩ ::
  if x.fd < 0 then [] else
  [⟨.getpid, x.pid⟩,
    ⟨.write x.fd (copyMsg x.pid buffer bufferLen locals).toWrite setSize, x.ret⟩,
    ⟨.close x.fd, x.closed⟩]

def result : Result :=
  if bufferLen.toNat > entryLenLimit then .copied (-1) else
  if x.fd < 0 then .copied (-1) else
  .copied x.ret.toUInt32

end CopyAnswers

theorem linked_copy (buffer : Memory) (bufferLen : UInt32) (locals : Locals) :
    (LibCall.copy buffer bufferLen).linked locals =
      if bufferLen.toNat > entryLenLimit then .ret (.copied (-1)) else
      .call .openDevice fun fd ↦
        if fd < 0 then .ret (.copied (-1)) else
        .call .getpid fun pid ↦
          .call (.write fd (copyMsg pid buffer bufferLen locals).toWrite setSize) fun ret ↦
            .call (.close fd) fun _ ↦ .ret (.copied ret.toUInt32) := by
  rw [LibCall.linked, program_copy]
  simp only [link_call, link_ite, link_ret, libc, request_bind, copyGetpid, copySet, copyClose]

section Copy

variable {buffer : Memory} {bufferLen : UInt32} {locals : Locals} {tr : List Answered} {r : Result}

theorem runs_copy (x : CopyAnswers) :
    Runs AnyAnswer () ((LibCall.copy buffer bufferLen).linked locals)
      (x.trace buffer bufferLen locals) (x.result bufferLen) () := by
  rw [linked_copy, CopyAnswers.trace, CopyAnswers.result]
  refine runs_ite_any (runs_call_any (runs_ite_any ?_))
  exact runs_call_any (runs_call_any (runs_call_any (.ret _ _)))

/-- **Every run of a copy** is told by the answers it gets, or would get if it went on. -/
theorem runs_copy_iff :
    Runs AnyAnswer () ((LibCall.copy buffer bufferLen).linked locals) tr r () ↔
      ∃ x : CopyAnswers, tr = x.trace buffer bufferLen locals ∧ r = x.result bufferLen := by
  refine ⟨fun h ↦ ?_, fun ⟨x, htr, hr⟩ ↦ htr ▸ hr ▸ runs_copy x⟩
  rw [linked_copy] at h
  rcases runs_ite_ret_iff.mp h with ⟨hlen, rfl, rfl, -⟩ | ⟨hlen, h⟩
  · exact ⟨⟨0, 0, 0, 0⟩, (if_pos hlen).symm, (if_pos hlen).symm⟩
  obtain ⟨fd, ⟨⟩, tr₁, -, h₁, rfl⟩ := runs_call_iff.mp h
  rcases runs_ite_ret_iff.mp h₁ with ⟨hfd, rfl, rfl, -⟩ | ⟨hfd, h₁⟩
  · exact ⟨⟨fd, 0, 0, 0⟩, by simp [CopyAnswers.trace, hlen, hfd],
      by simp [CopyAnswers.result, hfd]⟩
  obtain ⟨pid, ⟨⟩, tr₂, -, h₂, rfl⟩ := runs_call_iff.mp h₁
  obtain ⟨ret, ⟨⟩, tr₃, -, h₃, rfl⟩ := runs_call_iff.mp h₂
  obtain ⟨closed, ⟨⟩, tr₄, -, h₄, rfl⟩ := runs_call_iff.mp h₃
  obtain ⟨rfl, rfl, -⟩ := runs_ret_iff.mp h₄
  exact ⟨⟨fd, pid, ret, closed⟩, by simp [CopyAnswers.trace, hlen, hfd],
    by simp [CopyAnswers.result, hlen, hfd]⟩

end Copy

/-! ### Paste -/

/-- The answers to the calls of a paste, if it makes them all. -/
structure PasteAnswers where
  fd : Int32
  sourcePid : Int32 × GetMsg
  lockingPid : Int32
  ancestor : Int32
  lock : Int32
  get : Int32 × GetMsg
  closed : Int32

namespace PasteAnswers

variable (x : PasteAnswers) (id bufferLen : UInt32) (locals : Locals)

/-- The calls a paste makes that gets these answers. -/
def trace : List Answered :=
  ⟨.openDevice, x.fd⟩ ::
  if x.fd < 0 then [] else
  if id.toNat ≥ bufMaxCount then [] else
  ⟨.read x.fd locals.mg (encodeId id), x.sourcePid⟩ ::
  if x.sourcePid.1 < 0 then [] else
  ⟨.getpid, x.lockingPid⟩ ::
  ⟨.checkAncestor x.sourcePid.1 x.lockingPid, x.ancestor⟩ ::
  if toUint8 x.ancestor = 0 then [] else
  ⟨.write x.fd ((⟨x.lockingPid.toUInt32, id, bufferLen⟩ : LockMsg).toWrite locals.buffer) lockSize,
    x.lock⟩ ::
  if x.lock < 0 then [] else
  ⟨.read x.fd x.sourcePid.2.zeroed (encodePid x.lockingPid.toUInt32), x.get⟩ ::
  if x.get.1 < 0 then [] else [⟨.close x.fd, x.closed⟩]

def result : Result :=
  if x.fd < 0 then .pasted (-1) [] else
  if id.toNat ≥ bufMaxCount then .pasted (-1) [] else
  if x.sourcePid.1 < 0 then .pasted (-1) [] else
  if toUint8 x.ancestor = 0 then .pasted (-1) [] else
  if x.lock < 0 then .pasted x.lock.toUInt32 [] else
  if x.get.1 < 0 then .pasted x.get.1.toUInt32 [] else
  .pasted x.get.1.toUInt32 (x.get.2.buffer.bytes x.get.2.bufferLen.toNat)

end PasteAnswers

theorem linked_paste (id bufferLen : UInt32) (locals : Locals) :
    (LibCall.paste id bufferLen).linked locals =
      .call .openDevice fun fd ↦
        if fd < 0 then .ret (.pasted (-1) []) else
        if id.toNat ≥ bufMaxCount then .ret (.pasted (-1) []) else
        .call (.read fd locals.mg (encodeId id)) fun src ↦
          if src.1 < 0 then .ret (.pasted (-1) []) else
          .call .getpid fun pid ↦
            .call (.checkAncestor src.1 pid) fun a ↦
              if toUint8 a = 0 then .ret (.pasted (-1) []) else
              .call (.write fd ((⟨pid.toUInt32, id, bufferLen⟩ : LockMsg).toWrite locals.buffer)
                  lockSize) fun ret ↦
                if ret < 0 then .ret (.pasted ret.toUInt32 []) else
                .call (.read fd src.2.zeroed (encodePid pid.toUInt32)) fun y ↦
                  if y.1 < 0 then .ret (.pasted y.1.toUInt32 []) else
                  .call (.close fd) fun _ ↦
                    .ret (.pasted y.1.toUInt32 (y.2.buffer.bytes y.2.bufferLen.toNat)) := by
  rw [LibCall.linked, program_paste]
  simp only [link_call, link_ite, link_ret, libc, request_bind, pasteQuery, pasteGetpid, pasteCheck,
    pasteLock, pasteGet, pasteClose, checkIfAncestor, pure_eq_ret, call_bind, ret_bind,
    Bool.not_eq_true', bne_eq_false_iff_eq]

section Paste

variable {id bufferLen : UInt32} {locals : Locals} {tr : List Answered} {r : Result}

theorem runs_paste (x : PasteAnswers) :
    Runs AnyAnswer () ((LibCall.paste id bufferLen).linked locals) (x.trace id bufferLen locals)
      (x.result id) () := by
  rw [linked_paste, PasteAnswers.trace, PasteAnswers.result]
  refine runs_call_any (runs_ite_any (runs_ite_any ?_))
  refine runs_call_any (runs_ite_any (runs_call_any (runs_call_any (runs_ite_any ?_))))
  exact runs_call_any (runs_ite_any (runs_call_any (runs_ite_any (runs_call_any (.ret _ _)))))

/-- **Every run of a paste** is told by the answers it gets, or would get if it went on. -/
theorem runs_paste_iff :
    Runs AnyAnswer () ((LibCall.paste id bufferLen).linked locals) tr r () ↔
      ∃ x : PasteAnswers, tr = x.trace id bufferLen locals ∧ r = x.result id := by
  refine ⟨fun h ↦ ?_, fun ⟨x, htr, hr⟩ ↦ htr ▸ hr ▸ runs_paste x⟩
  rw [linked_paste] at h
  -- where the paste returns, what is not asked for any more may be anything
  have none : Int32 × GetMsg := (0, locals.mg)
  obtain ⟨fd, ⟨⟩, tr₁, -, h₁, rfl⟩ := runs_call_iff.mp h
  rcases runs_ite_ret_iff.mp h₁ with ⟨hfd, rfl, rfl, -⟩ | ⟨hfd, h₁⟩
  · exact ⟨⟨fd, none, 0, 0, 0, none, 0⟩, by simp [PasteAnswers.trace, hfd],
      by simp [PasteAnswers.result, hfd]⟩
  rcases runs_ite_ret_iff.mp h₁ with ⟨hid, rfl, rfl, -⟩ | ⟨hid, h₁⟩
  · exact ⟨⟨fd, none, 0, 0, 0, none, 0⟩, by simp [PasteAnswers.trace, hid],
      by simp [PasteAnswers.result, hid]⟩
  obtain ⟨src, ⟨⟩, tr₂, -, h₂, rfl⟩ := runs_call_iff.mp h₁
  rcases runs_ite_ret_iff.mp h₂ with ⟨hsrc, rfl, rfl, -⟩ | ⟨hsrc, h₂⟩
  · exact ⟨⟨fd, src, 0, 0, 0, none, 0⟩, by simp [PasteAnswers.trace, hfd, hid, hsrc],
      by simp [PasteAnswers.result, hsrc]⟩
  obtain ⟨pid, ⟨⟩, tr₃, -, h₃, rfl⟩ := runs_call_iff.mp h₂
  obtain ⟨a, ⟨⟩, tr₄, -, h₄, rfl⟩ := runs_call_iff.mp h₃
  rcases runs_ite_ret_iff.mp h₄ with ⟨ha, rfl, rfl, -⟩ | ⟨ha, h₄⟩
  · exact ⟨⟨fd, src, pid, a, 0, none, 0⟩, by simp [PasteAnswers.trace, hfd, hid, hsrc, ha],
      by simp [PasteAnswers.result, ha]⟩
  obtain ⟨ret, ⟨⟩, tr₅, -, h₅, rfl⟩ := runs_call_iff.mp h₄
  rcases runs_ite_ret_iff.mp h₅ with ⟨hret, rfl, rfl, -⟩ | ⟨hret, h₅⟩
  · exact ⟨⟨fd, src, pid, a, ret, none, 0⟩,
      by simp [PasteAnswers.trace, hfd, hid, hsrc, ha, hret],
      by simp [PasteAnswers.result, hfd, hid, hsrc, ha, hret]⟩
  obtain ⟨y, ⟨⟩, tr₆, -, h₆, rfl⟩ := runs_call_iff.mp h₅
  rcases runs_ite_ret_iff.mp h₆ with ⟨hy, rfl, rfl, -⟩ | ⟨hy, h₆⟩
  · exact ⟨⟨fd, src, pid, a, ret, y, 0⟩,
      by simp [PasteAnswers.trace, hfd, hid, hsrc, ha, hret, hy],
      by simp [PasteAnswers.result, hfd, hid, hsrc, ha, hret, hy]⟩
  obtain ⟨closed, ⟨⟩, tr₇, -, h₇, rfl⟩ := runs_call_iff.mp h₆
  obtain ⟨rfl, rfl, -⟩ := runs_ret_iff.mp h₇
  exact ⟨⟨fd, src, pid, a, ret, y, closed⟩,
    by simp [PasteAnswers.trace, hfd, hid, hsrc, ha, hret, hy],
    by simp [PasteAnswers.result, hfd, hid, hsrc, ha, hret, hy]⟩

end Paste

end MinixClipboard
