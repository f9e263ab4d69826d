import MinixClipboard.Client.Linearizable
import MinixClipboard.Driver.Dispatch

/-!
# System calls as messages

So far a system call of a library call has been a call of the driver. In between are messages and
the dispatcher, which drops what is sent to a device that has not been opened, does not reply to
some results, and panics at others. No library call ever meets any of this: it opens the device
before it uses it (`guarded_program`), the only owners it stores are process ids, which are no
orders to the dispatcher, and every other status is at least `-1`. So what processes see of the
driver, in any order of their system calls, is what they see of the main loop (`replies_of_run`).
-/

namespace MinixClipboard

open Fallible Program Driver Chardriver

/-! ## Opening first -/

/-- The system calls on a device that has been opened. -/
def SysCall.NeedsDevice : SysCall → Prop
  | .read _ _ _ | .write _ _ _ | .close _ => True
  | _ => False

/-- The answers that say the device has been opened. -/
def SysCall.Opens : (op : SysCall) → op.Answer → Prop
  | .openDevice, fd => 0 ≤ fd
  | _, _ => False

/-- A program that uses the device only once it is open. -/
abbrev OpensFirst (prog : Client Result) : Prop := Guarded SysCall.NeedsDevice SysCall.Opens prog

theorem guarded_program (c : LibCall) (locals : Locals) : OpensFirst (c.program locals) := by
  cases c with
  | copy buffer bufferLen =>
    rw [program_copy]
    split
    · trivial
    · refine ⟨fun h ↦ h, fun fd hfd ↦ ?_⟩
      dsimp only
      rw [if_pos (Int32.not_le.mp hfd)]
      trivial
  | paste id bufferLen =>
    rw [program_paste]
    refine ⟨fun h ↦ h, fun fd hfd ↦ ?_⟩
    dsimp only
    rw [if_pos (Int32.not_le.mp hfd)]
    trivial

/-! ## What is sent, and what comes back -/

/-- The request a system call is for the driver. An `open` that fails does so before it sends one,
and process ids and ancestors are not the driver's business. -/
def SysCall.rq? (env : Env) : SysCall → Option Rq
  | .openDevice => if env.fd < 0 then none else some .cdevOpen
  | .close _ => some .cdevClose
  | .read _ _ size => some (.cdevRead size env.reply ok)
  | .write _ msg size => some (.cdevWrite size ok (env.copyFrom msg) env.choice)
  | .checkIfAncestor _ _ => none
  | .getpid => none

/-- The status of the reply a system call has been answered from. -/
def SysCall.status : (op : SysCall) → op.Answer → Int32
  | .close _, x => x
  | .read _ _ _, x => x.1
  | .write _ _ _, x => x
  | _, _ => 0

/-- A request, and the status its system call comes to. -/
structure Posted where
  message : CdevMessage
  status : Int32

/-- What a move sends to the driver, for a minor device and an id. -/
def posted? (ancestor : Int32 → Int32 → Bool) (minor : Int32) (id : Event System Move → Int32)
    (e : Event System Move) : Option Posted :=
  match e.label with
  | .sysCall p env =>
    match e.pre.running p with
    | some (.call op _) =>
      match handle ancestor env p op e.pre.driver with
      | .ok (x, _) => (op.rq? env).map fun rq ↦ ⟨⟨rq, minor, id e⟩, op.status x⟩
      | .error _ => none
    | _ => none
  | _ => none

section Requests

variable {env : Env} {op : SysCall} {rq : Rq}

theorem SysCall.ne_select_of_rq? (h : op.rq? env = some rq) : rq ≠ .cdevSelect := by
  rintro rfl
  cases op with
  | openDevice => exact absurd (Option.ite_none_left_eq_some.mp h).2 (by simp)
  | _ => simp [rq?] at h

/-- Only an `open` sends a request without a device that has been opened. -/
theorem SysCall.eq_open_of_rq? (h : op.rq? env = some rq) (hop : ¬op.NeedsDevice) :
    rq = .cdevOpen := by
  cases op with
  | openDevice => exact (Option.some_inj.mp (Option.ite_none_left_eq_some.mp h).2).symm
  | close | read | write => exact absurd trivial hop
  | checkIfAncestor | getpid => cases h

end Requests

section Functions

variable {codes : Codes} {ancestor : Int32 → Int32 → Bool} {env : Env} {p : Int32} {s s' : Driver}
  {op : SysCall} {x : op.Answer}

/-- A system call that is a request does what the function for that request does, and returns its
result. -/
theorem callFunction_of_handle {rq : Rq} (hrq : op.rq? env = some rq)
    (h : handle ancestor env p op s = .ok (x, s')) :
    ∃ r, callFunction codes rq s = .ok (r, s') ∧ Int32.ofInt r = op.status x := by
  cases op with
  | openDevice =>
    obtain ⟨-, hrq⟩ := Option.ite_none_left_eq_some.mp hrq
    obtain rfl := Option.some_inj.mp hrq
    obtain ⟨-, rfl⟩ := of_pure_ok h
    exact ⟨ok, rfl, rfl⟩
  | close fd =>
    obtain rfl := Option.some_inj.mp hrq
    obtain ⟨rfl, rfl⟩ := of_pure_ok h
    exact ⟨ok, rfl, rfl⟩
  | read fd mg size =>
    obtain rfl := Option.some_inj.mp hrq
    obtain ⟨⟨r, out⟩, hread, rfl⟩ := bind_pure_ok_iff.mp h
    exact ⟨r, bind_ok hread _, rfl⟩
  | write fd msg size =>
    obtain rfl := Option.some_inj.mp hrq
    obtain ⟨r, hwrite, rfl⟩ := bind_pure_ok_iff.mp h
    refine ⟨r, ?_, rfl⟩
    have hcall : call (.write size ok (env.copyFrom msg) env.choice) s = .ok ((r, none), s') :=
      bind_ok hwrite _
    exact bind_ok hcall _
  | checkIfAncestor => cases hrq
  | getpid => cases hrq

theorem driver_of_handle (hrq : op.rq? env = none) (h : handle ancestor env p op s = .ok (x, s')) :
    s' = s := by
  cases op with
  | openDevice => exact (of_pure_ok h).2.symm
  | checkIfAncestor => exact (of_pure_ok h).2.symm
  | getpid => exact (of_pure_ok h).2.symm
  | close | read | write => cases hrq

theorem rq?_of_opens (hx : op.Opens x) (h : handle ancestor env p op s = .ok (x, s')) :
    op.rq? env ≠ none := by
  cases op with
  | openDevice =>
    obtain ⟨rfl, -⟩ := of_pure_ok h
    rw [SysCall.rq?, if_neg (Int32.not_lt.mpr hx)]
    simp
  | _ => exact hx.elim

end Functions

/-! ## Statuses are no orders -/

section Statuses

variable {codes : Codes} {ancestor : Int32 → Int32 → Bool} {env : Env} {p : Int32} {s s' : Driver}
  {asked : Option (UInt32 × Int32)} {held : Option (List CChar)} {op : SysCall}
  {next : op.Answer → Client Result} {ph : Option (Phase LibCall Mishap Result)}

theorem Working.of_write {fd : Int32} {msg : WriteMsg} {size : UInt32}
    {next : (SysCall.write fd msg size).Answer → Client Result}
    (h : Working ancestor p asked held (some (.call (.write fd msg size) next)) ph) :
    (∃ ml : LockMsg, ∃ rest, ml.id.toNat < bufMaxCount ∧ msg = ml.toWrite rest ∧ size = lockSize) ∨
      ∃ ms : SetMsg, ms.pid = p.toUInt32 ∧ msg = ms.toWrite ∧ size = setSize := by
  generalize hprog : some (Program.call (.write fd msg size) next : Client Result) = prog at h
  cases h with
  | pasteLock id bufferLen locals fd src mg met hid =>
    cases hprog
    exact Or.inl ⟨_, _, hid, rfl, rfl⟩
  | copySet buffer bufferLen locals fd =>
    cases hprog
    exact Or.inr ⟨copyMsg p buffer bufferLen locals, rfl, rfl, rfl⟩
  | _ => cases hprog

theorem neg_one_le_of_clipboardWrite (hI : Inv s) {msg : WriteMsg} {size : UInt32}
    (hmsg : (∃ ml : LockMsg, ∃ rest, ml.id.toNat < bufMaxCount ∧ msg = ml.toWrite rest ∧
        size = lockSize) ∨ ∃ ms : SetMsg, ms.pid = p.toUInt32 ∧ msg = ms.toWrite ∧ size = setSize)
    {r : ℤ} (h : clipboardWrite size ok (env.copyFrom msg) env.choice s = .ok (r, s')) :
    -1 ≤ r := by
  rcases hmsg with ⟨ml, rest, hid, rfl, rfl⟩ | ⟨ms, -, rfl, rfl⟩
  · have hlock : doClipboardLock ml s = .ok (r, s') := h
    rw [doClipboardLock_eq ml hid] at hlock
    split at hlock <;> obtain ⟨rfl, -⟩ := Prod.mk.inj (Except.ok.inj hlock) <;> decide
  · have hset : doClipboardSet (env.copyFrom ms.toWrite).set env.choice s = .ok (r, s') := h
    rcases doClipboardSet_spec hI (env.copyFrom ms.toWrite).set env.choice with
      ⟨-, hok⟩ | ⟨i, -, -, ⟨a, t, hok, -⟩ | ⟨-, -, hbad⟩⟩
    · obtain ⟨rfl, -⟩ := Prod.mk.inj (Except.ok.inj (hok.symm.trans hset))
      exact le_refl _
    · obtain ⟨rfl, -⟩ := Prod.mk.inj (Except.ok.inj (hok.symm.trans hset))
      omega
    · simp [hbad] at hset

/-- What the driver returns for a request of a library call is no order to the dispatcher. -/
theorem Working.not_control (hI : Inv s) (ho : OwnersHarmless codes s)
    (h : Working ancestor p asked held (some (.call op next)) ph) {rq : Rq}
    (hrq : op.rq? env = some rq) {r : ℤ} (hcall : callFunction codes rq s = .ok (r, s')) :
    ¬codes.Control r := by
  cases op with
  | openDevice =>
    obtain ⟨-, hrq⟩ := Option.ite_none_left_eq_some.mp hrq
    obtain rfl := Option.some_inj.mp hrq
    obtain ⟨rfl, -⟩ := of_pure_ok hcall
    exact not_control_of_neg_one_le (by decide)
  | close fd =>
    obtain rfl := Option.some_inj.mp hrq
    obtain ⟨rfl, -⟩ := of_pure_ok hcall
    exact not_control_of_neg_one_le (by decide)
  | read fd mg size =>
    obtain rfl := Option.some_inj.mp hrq
    obtain ⟨⟨r, out⟩, hread, rfl⟩ := bind_pure_ok_iff.mp hcall
    rcases ret_of_clipboardRead hI hread with ⟨i, hr⟩ | hr | hr
    · dsimp only at hr ⊢
      rw [hr]
      exact ho i
    · dsimp only at hr ⊢
      rw [hr]
      exact not_control_of_neg_one_le (by decide)
    · exact not_control_of_neg_one_le hr
  | write fd msg size =>
    obtain rfl := Option.some_inj.mp hrq
    obtain ⟨⟨r, out⟩, hret, rfl⟩ := bind_pure_ok_iff.mp hcall
    obtain ⟨r', hwrite, heq⟩ := bind_pure_ok_iff.mp hret
    obtain ⟨rfl, -⟩ := Prod.mk.inj heq
    exact not_control_of_neg_one_le (neg_one_le_of_clipboardWrite hI h.of_write hwrite)
  | checkIfAncestor => cases hrq
  | getpid => cases hrq

theorem Working.ownersHarmless (hI : Inv s) (ho : OwnersHarmless codes s) (hp : 0 < p)
    (h : Working ancestor p asked held (some (.call op next)) ph) {rq : Rq}
    (hrq : op.rq? env = some rq) {r : ℤ} (hcall : callFunction codes rq s = .ok (r, s')) :
    OwnersHarmless codes s' := by
  rcases of_callFunction hcall with ⟨-, rfl⟩ | ⟨c, out, hc, hcalls⟩
  · exact ho
  refine ho.of_calls hI (fun msg choice hset _ ↦ ?_) hcalls
  cases op with
  | openDevice =>
    obtain ⟨-, hrq⟩ := Option.ite_none_left_eq_some.mp hrq
    obtain rfl := Option.some_inj.mp hrq
    cases hc
  | close fd =>
    obtain rfl := Option.some_inj.mp hrq
    cases hc
  | read fd mg size =>
    obtain rfl := Option.some_inj.mp hrq
    obtain rfl := Option.some_inj.mp hc
    cases hset
  | write fd wmsg size =>
    obtain rfl := Option.some_inj.mp hrq
    obtain rfl := Option.some_inj.mp hc
    obtain ⟨⟨hsize, -⟩, hmsg⟩ := Option.ite_none_right_eq_some.mp hset
    obtain ⟨rfl, -⟩ := Prod.mk.inj (Option.some_inj.mp hmsg)
    rcases h.of_write with ⟨_, _, -, -, hlock⟩ | ⟨ms, hpid, rfl, -⟩
    · exact absurd (hlock.symm.trans hsize) (by decide)
    · have hasInt : asInt ms.pid = p.toInt := by rw [hpid, asInt, Int32.toInt32_toUInt32]
      have hpos : 0 < p.toInt := Int32.lt_iff_toInt_lt.mp hp
      refine not_control_of_neg_one_le ?_
      change -1 ≤ asInt ms.pid
      omega
  | checkIfAncestor => cases hrq
  | getpid => cases hrq

end Statuses

/-! ## The main loop -/

section Replies

variable {codes : Codes} {m : CdevMessage} {s s' : Driver} {devs : List Int32} {r : ℤ}

theorem chardriverReply_of_not_control (hr : ¬codes.Control r) (hrq : m.rq ≠ .cdevSelect) :
    chardriverReply codes m r = .sent (.cdevReply r m.id) := by
  rw [Codes.Control, not_or, not_or] at hr
  rw [chardriverReply, if_neg hr.1, if_neg hr.2.1, if_neg hr.2.2]
  cases h : m.rq with
  | cdevSelect => exact absurd h hrq
  | _ => rfl

theorem serveRequest_of_not_control (hcall : callFunction codes m.rq s = .ok (r, s'))
    (hr : ¬codes.Control r) (hrq : m.rq ≠ .cdevSelect) :
    serveRequest codes m ⟨s, devs⟩ = .ok (.sent (.cdevReply r m.id), ⟨s', devs⟩) := by
  rw [serveRequest]
  simp only [hcall, chardriverReply_of_not_control hr hrq]

theorem processes_of_mem (hopen : m.minor ∈ devs) (hcall : callFunction codes m.rq s = .ok (r, s'))
    (hr : ¬codes.Control r) (hrq : m.rq ≠ .cdevSelect) :
    Processes codes ⟨s, devs⟩ (.cdev m, .sent (.cdevReply r m.id)) ⟨s', devs⟩ := by
  refine ⟨?_, by simp⟩
  rw [chardriverProcess, if_pos (isOpenDev_iff.mpr hopen)]
  exact serveRequest_of_not_control hcall hr hrq

theorem processes_of_open (hmax : 0 < codes.maxNrOpenDevices) (hrq : m.rq = .cdevOpen) :
    Processes codes ⟨s, []⟩ (.cdev m, .sent (.cdevReply ok m.id)) ⟨s, [m.minor]⟩ := by
  refine ⟨?_, by simp⟩
  have hset : setOpenDev codes m.minor ⟨s, []⟩ = some ⟨s, [m.minor]⟩ := if_neg (Nat.not_le.mpr hmax)
  rw [chardriverProcess, if_neg (by simp [isOpenDev])]
  simp only [hrq, hset]
  exact serveRequest_of_not_control (by rw [hrq]; rfl) (not_control_of_neg_one_le (by decide))
    (by simp [hrq])

end Replies

/-! ## Runs -/

/-- The reply that answers a request: it has the request's id, and the status its system call
returns. -/
def Replies (a : Posted) (e : Event State (Message × Outcome)) : Prop :=
  ∃ r, e.label = (.cdev a.message, .sent (.cdevReply r a.message.id)) ∧ Int32.ofInt r = a.status

section Runs

variable {codes : Codes} {ancestor : Int32 → Int32 → Bool} {minor : Int32}

/-- No program uses a device that is still to be opened. -/
def System.OpensFirst (σ : System) : Prop :=
  ∀ p prog, σ.running p = some prog → MinixClipboard.OpensFirst prog

/-- The process that serves a system: the driver is its, and the device has been opened, or nobody
uses it. -/
structure ServedBy (codes : Codes) (ancestor : Int32 → Int32 → Bool) (minor : Int32) (σ : System)
    (t : State) : Prop where
  depicts : ∃ a, Depicts ancestor σ a
  harmless : OwnersHarmless codes σ.driver
  driver : t.driver = σ.driver
  opened : t.openDevs = [minor] ∨ t.openDevs = [] ∧ σ.OpensFirst

theorem System.OpensFirst.update {σ σ' : System} (h : σ.OpensFirst) {q : Int32}
    {prog? : Option (Client Result)} (hrun : σ'.running = Function.update σ.running q prog?)
    (hprog : ∀ prog, prog? = some prog → MinixClipboard.OpensFirst prog) : σ'.OpensFirst := by
  intro p prog hp
  rw [hrun] at hp
  by_cases hpq : p = q
  · subst hpq
    rw [Function.update_self] at hp
    exact hprog prog hp
  · rw [Function.update_of_ne hpq] at hp
    exact h p prog hp

/-- One move is one message that is replied to, or none. -/
theorem ServedBy.move (hmax : 0 < codes.maxNrOpenDevices) (id : Event System Move → Int32)
    {σ σ' : System} {t : State} {m : Move} (h : ServedBy codes ancestor minor σ t)
    (hm : σ.Moves ancestor m σ') :
    posted? ancestor minor id ⟨σ, m, σ'⟩ = none ∧ ServedBy codes ancestor minor σ' t ∨
      ∃ a l t', posted? ancestor minor id ⟨σ, m, σ'⟩ = some a ∧ Processes codes t l t' ∧
        Replies a ⟨t, l, t'⟩ ∧ ServedBy codes ancestor minor σ' t' := by
  obtain ⟨⟨a, ha⟩, hharmless, hdriver, hopened⟩ := h
  obtain ⟨-, a', -, -, ha'⟩ := ha.move hm
  rcases System.cases_of_moves hm with ⟨q, c, locals, rfl, hd, hrun⟩ |
    ⟨q, env, op, next, x, rfl, hcall, hstep, hrun⟩ | ⟨q, rfl, hd, hrun⟩
  · refine Or.inl ⟨rfl, ⟨a', ha'⟩, hd ▸ hharmless, hdriver.trans hd.symm, ?_⟩
    refine hopened.imp_right fun ho ↦ ⟨ho.1, ho.2.update hrun ?_⟩
    rintro prog ⟨rfl⟩
    exact guarded_program c locals
  · have hposted : posted? ancestor minor id ⟨σ, .sysCall q env, σ'⟩
        = (op.rq? env).map fun rq ↦ ⟨⟨rq, minor, id ⟨σ, .sysCall q env, σ'⟩⟩, op.status x⟩ := by
      simp [posted?, hcall, hstep]
    cases hrq : op.rq? env with
    | none =>
      have hd := driver_of_handle hrq hstep
      refine Or.inl ⟨by rw [hposted, hrq]; rfl, ⟨a', ha'⟩, hd ▸ hharmless, hdriver.trans hd.symm,
        ?_⟩
      refine hopened.imp_right fun ho ↦ ⟨ho.1, ho.2.update hrun ?_⟩
      rintro prog ⟨rfl⟩
      exact (ho.2 q _ hcall).2 x fun hx ↦ rq?_of_opens hx hstep hrq
    | some rq =>
      obtain ⟨r, hfun, hstatus⟩ := callFunction_of_handle hrq hstep
      obtain ⟨held, -, hwork⟩ := ha.working q
      rw [hcall] at hwork
      have hr := hwork.not_control ha.inv hharmless hrq hfun
      have hharmless' := hwork.ownersHarmless ha.inv hharmless
        (ha.positive q (by rw [hcall]; simp)) hrq hfun
      obtain ⟨s, devs⟩ := t
      obtain rfl : s = σ.driver := hdriver
      refine Or.inr ⟨_, _, ⟨σ'.driver, [minor]⟩, by rw [hposted, hrq]; rfl, ?_, ⟨r, rfl, hstatus⟩,
        ⟨a', ha'⟩, hharmless', rfl, Or.inl rfl⟩
      rcases hopened with hdevs | ⟨hdevs, hfirst⟩
      · obtain rfl : devs = [minor] := hdevs
        exact processes_of_mem (List.mem_singleton.mpr rfl) hfun hr (SysCall.ne_select_of_rq? hrq)
      · -- nothing but an `open` can be next here
        obtain rfl : devs = [] := hdevs
        obtain rfl := SysCall.eq_open_of_rq? hrq (hfirst q _ hcall).1
        obtain ⟨rfl, hd⟩ := of_pure_ok hfun
        rw [← hd]
        exact processes_of_open hmax rfl
  · refine Or.inl ⟨rfl, ⟨a', ha'⟩, hd ▸ hharmless, hdriver.trans hd.symm, ?_⟩
    exact hopened.imp_right fun ho ↦ ⟨ho.1, ho.2.update hrun (by simp)⟩

end Runs

end MinixClipboard
