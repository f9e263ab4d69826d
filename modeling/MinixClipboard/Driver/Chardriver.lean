import MinixClipboard.Driver.FailedRead

/-!
# The dispatcher

`chardriver.c`: the main loop of every character driver. It calls the driver's hook for a request
and sends what the hook returns to the file system, as the status of its reply. Three values are no
statuses but orders to the dispatcher itself, not to reply or to give up.

The answer to a PID query is a status like any other, and what it says has been chosen by whoever
made the set. `answersReads_iff` says which sets the dispatcher can be fed with where the driver is
prepared for them: those whose pid is not one of the three values.
-/

namespace MinixClipboard

namespace Chardriver

/-- What `chardriver.c` takes from the headers of the system. -/
structure Codes where
  /-- `EDONTREPLY`, on which most requests are not replied to. -/
  edontreply : ℤ
  /-- `SUSPEND`, which "should not be used anymore". -/
  suspend : ℤ
  /-- `ERESTART`, on which no request is replied to. -/
  erestart : ℤ
  /-- `ENOTTY` -/
  enotty : ℤ
  /-- `EBADF` -/
  ebadf : ℤ
  /-- `ENXIO` -/
  enxio : ℤ
  /-- `MAX_NR_OPEN_DEVICES` -/
  maxNrOpenDevices : ℕ
  /-- The first three are negative, and none of them is `EPERM`. -/
  edontreply_lt : edontreply < -1
  suspend_lt : suspend < -1
  erestart_lt : erestart < -1

/-- The values that are orders to the dispatcher. -/
def Codes.Control (codes : Codes) (r : ℤ) : Prop :=
  r = codes.edontreply ∨ r = codes.suspend ∨ r = codes.erestart

instance (codes : Codes) (r : ℤ) : Decidable (codes.Control r) :=
  inferInstanceAs (Decidable (_ ∨ _))

/-! ## Messages -/

/-- A request to a character device, by its type. A read and a write come with what the kernel
contributes to the call of their hook. -/
inductive Rq
  /-- `CDEV_OPEN` -/
  | cdevOpen
  /-- `CDEV_CLOSE` -/
  | cdevClose
  /-- `CDEV_READ` -/
  | cdevRead (size : UInt32) (msg : GetMsg) (copied : ℤ)
  /-- `CDEV_WRITE` -/
  | cdevWrite (size : UInt32) (copied : ℤ) (msg : WriteMsg) (choice : Option Addr)
  /-- `CDEV_IOCTL` -/
  | cdevIoctl
  /-- `CDEV_CANCEL` -/
  | cdevCancel
  /-- `CDEV_SELECT` -/
  | cdevSelect

/-- A message with a request to a character device. -/
structure CdevMessage where
  rq : Rq
  minor : Int32
  id : Int32

/-- A message to the driver. -/
inductive Message
  /-- A notification, or a message of no type the dispatcher knows: there is no hook for it. -/
  | other
  /-- `BDEV_OPEN` -/
  | bdevOpen (id : Int32)
  /-- A request to a character device. -/
  | cdev (m : CdevMessage)

/-- A reply. -/
inductive ReplyMessage
  /-- `CDEV_REPLY` -/
  | cdevReply (status : ℤ) (id : Int32)
  /-- `CDEV_SEL1_REPLY` -/
  | cdevSel1Reply (status : ℤ) (minor : Int32)
  /-- `BDEV_REPLY` -/
  | bdevReply (status : ℤ) (id : Int32)

/-- What becomes of a message. -/
inductive Outcome
  /-- The reply is sent. -/
  | sent (reply : ReplyMessage)
  /-- Nothing is sent. -/
  | silent
  /-- The driver is stopped by a `panic`. -/
  | panicked

/-- The state of the driver process: the driver's own, and `open_devs` up to its next free slot. -/
structure State where
  driver : Driver
  openDevs : List Int32

/-! ## The functions -/

variable (codes : Codes)

def isOpenDev (minor : Int32) (s : State) : Bool := s.openDevs.contains minor

/-- `set_open_dev`, which panics when it is out of slots. -/
def setOpenDev (minor : Int32) (s : State) : Option State :=
  if s.openDevs.length ≥ codes.maxNrOpenDevices then none
  else some { s with openDevs := s.openDevs ++ [minor] }

/-- `chardriver_reply`. The requests are all there are, so its last `default` is not reached. -/
def chardriverReply (mess : CdevMessage) (r : ℤ) : Outcome :=
  if r = codes.edontreply then
    match mess.rq with
    | .cdevRead .. | .cdevWrite .. | .cdevIoctl | .cdevCancel => .silent
    | .cdevOpen | .cdevClose | .cdevSelect => .panicked
  else if r = codes.suspend then .panicked
  else if r = codes.erestart then .silent
  else match mess.rq with
    | .cdevOpen | .cdevClose => .sent (.cdevReply r mess.id)
    | .cdevRead .. | .cdevWrite .. | .cdevIoctl => .sent (.cdevReply r mess.id)
    | .cdevCancel => .sent (.cdevReply r mess.id)
    | .cdevSelect => .sent (.cdevSel1Reply r mess.minor)

/-- `do_transfer`: the driver has hooks for both directions. -/
def doTransfer (c : Call) : DriverM ℤ := do return (← Driver.call c).1

/-- The functions for the requests. `clipboard_open` and `clipboard_close` return `OK`, which opens
no other device; the other hooks are not there. -/
def callFunction : Rq → DriverM ℤ
  | .cdevOpen => return ok
  | .cdevClose => return ok
  | .cdevRead size msg copied => doTransfer (.read size msg copied)
  | .cdevWrite size copied msg choice => doTransfer (.write size copied msg choice)
  | .cdevIoctl => return codes.enotty
  | .cdevCancel => return codes.edontreply
  | .cdevSelect => return codes.ebadf

/-- The end of `chardriver_process`, for a device that is open. -/
def serveRequest (m : CdevMessage) (s : State) : Except Fault (Outcome × State) :=
  match callFunction codes m.rq s.driver with
  | .ok (r, driver) => .ok (chardriverReply codes m r, { s with driver })
  | .error e => .error e

def chardriverProcess : Message → State → Except Fault (Outcome × State)
  | .other, s => .ok (.silent, s)
  | .bdevOpen id, s => .ok (.sent (.bdevReply codes.enxio id), s)
  | .cdev m, s =>
    if isOpenDev m.minor s then serveRequest codes m s
    else match m.rq with
      | .cdevOpen =>
        match setOpenDev codes m.minor s with
        | some s => serveRequest codes m s
        | none => .ok (.panicked, s)
      -- a spurious request for a device that has not been opened
      | _ => .ok (.silent, s)

/-! ## Replies -/

variable {codes}

theorem chardriverReply_sent_iff (mess : CdevMessage) (r : ℤ) :
    (∃ reply, chardriverReply codes mess r = .sent reply) ↔ ¬codes.Control r := by
  obtain ⟨rq, minor, id⟩ := mess
  rw [chardriverReply]
  by_cases h₁ : r = codes.edontreply
  · rw [if_pos h₁]
    refine iff_of_false ?_ (not_not_intro (Or.inl h₁))
    cases rq <;> simp
  rw [if_neg h₁]
  by_cases h₂ : r = codes.suspend
  · rw [if_pos h₂]
    exact iff_of_false (by simp) (not_not_intro (Or.inr (Or.inl h₂)))
  rw [if_neg h₂]
  by_cases h₃ : r = codes.erestart
  · rw [if_pos h₃]
    exact iff_of_false (by simp) (not_not_intro (Or.inr (Or.inr h₃)))
  · rw [if_neg h₃]
    refine iff_of_true ?_ (by simp [Codes.Control, h₁, h₂, h₃])
    cases rq <;> exact ⟨_, rfl⟩

theorem chardriverReply_read {size : UInt32} {msg : GetMsg} {copied r : ℤ} (minor id : Int32)
    (hr : ¬codes.Control r) :
    chardriverReply codes ⟨.cdevRead size msg copied, minor, id⟩ r = .sent (.cdevReply r id) := by
  rw [Codes.Control, not_or, not_or] at hr
  rw [chardriverReply, if_neg hr.1, if_neg hr.2.1, if_neg hr.2.2]

theorem not_control_of_neg_one_le {r : ℤ} (hr : -1 ≤ r) : ¬codes.Control r := by
  have h₁ := codes.edontreply_lt
  have h₂ := codes.suspend_lt
  have h₃ := codes.erestart_lt
  rintro (h | h | h) <;> omega

end Chardriver

namespace Driver

open Fallible Chardriver

variable {codes : Codes} {addr : Addr} {s s' : Driver} {c : Call} {i : Fin bufMaxCount}
  {size : UInt32} {msg : GetMsg} {copied : ℤ}

theorem chardriverProcess_read {minor id : Int32} {devs : List Int32} (hopen : minor ∈ devs) :
    chardriverProcess codes (.cdev ⟨.cdevRead size msg copied, minor, id⟩) ⟨s, devs⟩
      = match clipboardRead size msg copied s with
        | .ok (r, s') =>
          .ok (chardriverReply codes ⟨.cdevRead size msg copied, minor, id⟩ r.1, ⟨s', devs⟩)
        | .error e => .error e := by
  have hdev : isOpenDev minor ⟨s, devs⟩ = true := List.contains_iff_mem.mpr hopen
  rw [chardriverProcess, if_pos hdev, serveRequest, callFunction, doTransfer, bind_apply, call]
  cases clipboardRead size msg copied s <;> rfl

/-- The driver returns from every read that is forwarded to it, with no order to the dispatcher, and
what it returns is what the dispatcher replies. -/
def AnswersReads (codes : Codes) (s : Driver) : Prop :=
  ∀ size msg copied, ¬codes.Control copied → ∃ r s',
    clipboardRead size msg copied s = .ok (r, s') ∧ ¬codes.Control r.1 ∧
      ∀ minor id devs, minor ∈ devs →
        chardriverProcess codes (.cdev ⟨.cdevRead size msg copied, minor, id⟩) ⟨s, devs⟩
          = .ok (.sent (.cdevReply r.1 id), ⟨s', devs⟩)

/-- The owners that are stored are no orders to the dispatcher, also those of `EMPTY` slots. -/
def OwnersHarmless (codes : Codes) (s : Driver) : Prop :=
  ∀ i, ¬codes.Control (s.entries i).sourcePid.toInt

/-- A set that is given a slot does not come with a pid that is an order to the dispatcher. -/
def Harmless (codes : Codes) (s : Driver) (c : Call) : Prop :=
  ∀ msg choice, c.set? = some (msg, choice) → (∃ i, (s.entries i).inUse = .empty) →
    ¬codes.Control (asInt msg.pid)

/-! ## One read -/

theorem clipboardRead_of_lt (hsize : size < getSize) (msg : GetMsg) (copied : ℤ) (s : Driver) :
    clipboardRead size msg copied s = (do return (← pidQuery size, none)) s := by
  have hquery : isPidQuery size = true := decide_eq_true hsize
  rw [clipboardRead, if_pos hquery]

/-- **What a read returns**: the owner of an entry, the result of the transfer, or a value no
smaller than `-1`. -/
theorem ret_of_clipboardRead (hI : Inv s) {r : ℤ × Option GetMsg}
    (h : clipboardRead size msg copied s = .ok (r, s')) :
    (∃ i, r.1 = (s.entries i).sourcePid.toInt) ∨ r.1 = copied ∨ -1 ≤ r.1 := by
  -- the size says which of the two it is, a query or a get
  by_cases hsize : size < getSize
  · rw [clipboardRead_of_lt hsize, bind_pure_ok_iff] at h
    obtain ⟨ret, hquery, rfl⟩ := h
    rcases Nat.lt_or_ge size.toNat bufMaxCount with hid | hid
    · rw [pidQuery_of_lt hid, Except.ok.injEq, Prod.mk.injEq] at hquery
      exact Or.inl ⟨_, hquery.1.symm⟩
    · rw [pidQuery_of_le hid, Except.ok.injEq, Prod.mk.injEq] at hquery
      exact Or.inr (Or.inr hquery.1.le)
  · rcases clipboardRead_cases hI (UInt32.not_lt.mp hsize) msg copied with
      ⟨-, hok⟩ | ⟨-, -, hok⟩ | ⟨i, t, -, -, -, hok⟩
    · obtain ⟨rfl, -⟩ : (-1, none) = r ∧ s = s' := by simpa [hok] using h
      exact Or.inr (Or.inr (le_refl _))
    · obtain ⟨rfl, -⟩ : (1, none) = r ∧ s = s' := by simpa [hok] using h
      exact Or.inr (Or.inr (by decide))
    · rw [hok] at h
      split at h
      · simp at h
      split at h
      · obtain ⟨rfl, -⟩ : (ok, some _) = r ∧ t = s' := by simpa using h
        exact Or.inr (Or.inr (show -1 ≤ ok by decide))
      · obtain ⟨rfl, -⟩ : (copied, none) = r ∧ t = s' := by simpa using h
        exact Or.inr (Or.inl rfl)

theorem exists_clipboardRead (hI : Inv s) (hb : Bounded s) (size : UInt32) (msg : GetMsg)
    (copied : ℤ) : ∃ r s', clipboardRead size msg copied s = .ok (r, s') := by
  rcases call_returns_or (c := .read size msg copied) hI hb nofun with hok | ⟨_, hlock, -⟩
  · exact hok
  · cases hlock

theorem OwnersHarmless.answersReads (h : OwnersHarmless codes s) (hI : Inv s) (hb : Bounded s) :
    AnswersReads codes s := by
  intro size msg copied hcopied
  obtain ⟨r, s', hread⟩ := exists_clipboardRead hI hb size msg copied
  have hr : ¬codes.Control r.1 := by
    rcases ret_of_clipboardRead hI hread with ⟨i, hr⟩ | hr | hr
    · rw [hr]
      exact h i
    · rwa [hr]
    · exact not_control_of_neg_one_le hr
  refine ⟨r, s', hread, hr, fun minor id devs hopen ↦ ?_⟩
  rw [chardriverProcess_read hopen, hread]
  simp only [chardriverReply_read minor id hr]

/-- Whatever owners are stored, some query answers with them. -/
theorem AnswersReads.ownersHarmless (h : AnswersReads codes s) : OwnersHarmless codes s := by
  intro i
  have hlt : (UInt32.ofNat i.val).toNat < bufMaxCount := by
    rw [toNat_ofNat_fin]
    exact i.isLt
  have hquery := pidQuery_of_lt (s := s) hlt
  have hi : (⟨(UInt32.ofNat i.val).toNat, hlt⟩ : Fin bufMaxCount) = i :=
    Fin.ext (toNat_ofNat_fin i)
  rw [hi] at hquery
  have hsize : UInt32.ofNat i.val < getSize := by
    rw [UInt32.lt_iff_toNat_lt]
    exact hlt.trans (by decide)
  obtain ⟨r, s', hread, hr, -⟩ := h (UInt32.ofNat i.val) ⟨0, 0, fun _ ↦ 0⟩ ok
    (not_control_of_neg_one_le (by decide))
  rw [clipboardRead_of_lt hsize, bind_ok hquery] at hread
  obtain ⟨rfl, -⟩ : ((s.entries i).sourcePid.toInt, none) = r ∧ s = s' :=
    Prod.mk.inj (Except.ok.inj hread)
  exact hr

/-- Where the stored lengths are bounded, every read is answered exactly if no owner that is stored
is an order to the dispatcher. -/
theorem answersReads_iff_ownersHarmless (hI : Inv s) (hb : Bounded s) :
    AnswersReads codes s ↔ OwnersHarmless codes s :=
  ⟨AnswersReads.ownersHarmless, fun h ↦ h.answersReads hI hb⟩

/-! ## Runs -/

/-- The step of the invariant: only a set that is given a slot stores an owner. -/
theorem OwnersHarmless.of_serves (h : OwnersHarmless codes s) (hI : Inv s) {l : Request × Reply}
    (hset : ∀ msg choice, l.1 = .set msg choice → (∃ i, (s.entries i).inUse = .empty) →
      ¬codes.Control (asInt msg.pid)) (hs : Serves s l s') : OwnersHarmless codes s' := by
  intro j
  rcases entry_of_serves hI hs j with ⟨_, _, he, -⟩ | ⟨msg, choice, a, hl, hfree, -, he, -⟩
  · rw [he]
    exact h j
  · rw [he]
    exact hset msg choice hl ⟨j, hfree⟩

theorem OwnersHarmless.of_calls (h : OwnersHarmless codes s) (hI : Inv s) (hc : Harmless codes s c)
    {r : ℤ × Option GetMsg} (hcalls : Calls s (c, r) s') : OwnersHarmless codes s' := by
  rcases hcalls.serves with rfl | ⟨l, hs, hset⟩
  · exact h
  · exact h.of_serves hI (fun msg choice hl ↦ hc msg choice (hset msg choice hl)) hs

theorem harmless_of_calls (hI : Inv s) {r : ℤ × Option GetMsg} (hcalls : Calls s (c, r) s')
    (h : OwnersHarmless codes s') : Harmless codes s c := by
  rintro msg choice hset ⟨k, hk⟩
  rw [Calls, call_of_set? hset, bind_pure_ok_iff] at hcalls
  obtain ⟨ret, hok, -⟩ := hcalls
  rcases doClipboardSet_spec hI msg choice with
    ⟨hfull, -⟩ | ⟨i, -, -, ⟨a, t, hset', hacc, -⟩ | ⟨-, -, hbad⟩⟩
  · exact absurd hk (hfull k)
  · -- the set was given slot `i`, and its owner there is the pid it came with
    obtain ⟨-, rfl⟩ : ((i : ℕ) : ℤ) = ret ∧ t = s' := by simpa [hset'] using hok
    have howner := h i
    rw [hacc.entry] at howner
    exact howner
  · simp [hbad] at hok

theorem ownersHarmless_initial (addr : Addr) : OwnersHarmless codes (initial addr) :=
  fun _ ↦ not_control_of_neg_one_le (show (-1 : ℤ) ≤ (0 : Int32).toInt by decide)

section Runs

variable {h : List (Event Driver (Call × (ℤ × Option GetMsg)))}

theorem inv_bounded_of_mem_statesOf (ha : Stack.Fits addr) (hrun : Run Calls (initial addr) h s)
    (hprep : ∀ e ∈ h, Prepared e.pre e.label.1) :
    ∀ t ∈ statesOf (initial addr) h, Inv t ∧ Bounded t :=
  hrun.forall_statesOf (P := fun t ↦ Inv t ∧ Bounded t) (Q := fun e ↦ Prepared e.pre e.label.1)
    ⟨inv_initial ha, fun _ hi ↦ absurd rfl hi⟩
    (fun _ hpre hp hcalls ↦ bounded_of_calls hpre.1 hpre.2 hp hcalls) hprep

/-- **Stored owners and the dispatcher.** In a run whose every set fits a message and has memory
where it is given a slot, every read is answered in every state, the first one included, exactly if
no set that is given a slot comes with an order to the dispatcher for a pid. No such run is cut
short: the next call returns, too, if the driver is prepared for it and it locks a slot. -/
theorem answersReads_iff (codes : Codes) (ha : Stack.Fits addr)
    (hrun : Run Calls (initial addr) h s) (hprep : ∀ e ∈ h, Prepared e.pre e.label.1) :
    ((∀ t ∈ statesOf (initial addr) h, AnswersReads codes t) ↔
      ∀ e ∈ h, Harmless codes e.pre e.label.1) ∧
    ∀ c, Prepared s c → (∀ msg, c.lock? = some msg → msg.id.toNat < bufMaxCount) →
      ∃ r s', Calls s (c, r) s' := by
  have hstates := inv_bounded_of_mem_statesOf ha hrun hprep
  refine ⟨⟨fun hans e he ↦ ?_, fun hall t ht ↦ ?_⟩, fun c hp hlock ↦ ?_⟩
  · obtain ⟨hpre, hcalls⟩ := hrun.reachable_pre he
    have hpost := hans e.post (List.mem_cons_of_mem _ (List.mem_map_of_mem he))
    exact harmless_of_calls (inv_of_calls ha hpre) hcalls hpost.ownersHarmless
  · obtain ⟨hI, hb⟩ := hstates t ht
    refine (answersReads_iff_ownersHarmless hI hb).mpr ?_
    -- the owners stay harmless by the invariant of the driver, which every state of the run has
    exact (hrun.forall_statesOf (P := fun t ↦ Reachable Calls (initial addr) t ∧
        OwnersHarmless codes t) (Q := fun e ↦ Harmless codes e.pre e.label.1)
      ⟨.refl, ownersHarmless_initial addr⟩
      (fun e hpre hc hcalls ↦ ⟨hpre.1.next hcalls,
        hpre.2.of_calls (inv_of_calls ha hpre.1) hc hcalls⟩) hall t ht).2
  · have hI := inv_of_calls ha hrun.reachable
    rcases call_returns_or hI (bounded_of_run ha hrun hprep) hp with hok | ⟨msg, hmsg, hid, -⟩
    · exact hok
    · exact absurd (hlock msg hmsg) (Nat.not_lt.mpr hid)

end Runs

/-- Values such as the headers of the system have. -/
def sampleCodes : Codes where
  edontreply := -203
  suspend := -998
  erestart := -200
  enotty := -25
  ebadf := -9
  enxio := -6
  maxNrOpenDevices := 256
  edontreply_lt := by decide
  suspend_lt := by decide
  erestart_lt := by decide

/-- A set of one byte under this pid. -/
def setBy (pid : UInt32) : Call :=
  .write setSize ok (⟨pid, 1, 1, fun _ ↦ 97⟩ : SetMsg).toWrite (some 8)

/-- The driver once a byte is stored under this pid. -/
def storedBy (pid : UInt32) : Driver := after (.set ⟨pid, 1, 1, fun _ ↦ 97⟩ (some 8)) (initial 4096)

theorem calls_setBy (pid : UInt32) : Calls (initial 4096) (setBy pid, (99, none)) (storedBy pid) :=
  rfl

/-- The history of that one set. -/
def storing (pid : UInt32) : List (Event Driver (Call × (ℤ × Option GetMsg))) :=
  [⟨initial 4096, (setBy pid, (99, none)), storedBy pid⟩]

/-- With what process 7 has stored, every read is replied to. -/
theorem answersReads_iff_sample :
    (∀ t ∈ statesOf (initial 4096) (storing 7), AnswersReads sampleCodes t) ∧
      ∃ r s', Calls (storedBy 7) (.read 99 ⟨0, 0, fun _ ↦ 0⟩ ok, r) s' := by
  have hset : (setBy 7).set? = some (⟨7, 1, 1, fun _ ↦ 97⟩, some 8) := rfl
  have hharmless : ∀ e ∈ storing 7, Harmless sampleCodes e.pre e.label.1 := by
    intro e he msg choice hmsg _
    obtain rfl := List.mem_singleton.mp he
    obtain ⟨rfl, rfl⟩ : _ = msg ∧ _ = choice := by simpa [hset] using hmsg
    exact not_control_of_neg_one_le (show -1 ≤ asInt 7 by decide)
  have hprepared : ∀ e ∈ storing 7, Prepared e.pre e.label.1 := by
    intro e he msg choice hmsg _
    obtain rfl := List.mem_singleton.mp he
    obtain ⟨rfl, rfl⟩ : _ = msg ∧ _ = choice := by simpa [hset] using hmsg
    exact ⟨by decide, 8, rfl, by decide, rfl⟩
  have hreads := answersReads_iff sampleCodes (show Stack.Fits 4096 by decide)
    (Run.nil.snoc (calls_setBy 7)) hprepared
  exact ⟨hreads.1.mpr hharmless, hreads.2 _ nofun nofun⟩

/-- What was stored under the pid `EDONTREPLY` silences the driver, and what was stored under the
pid `SUSPEND` kills it: all it takes is to ask who owns the entry. -/
theorem not_answersReads_storedBy :
    (Reachable Calls (initial 4096) (storedBy 4294967093) ∧
      chardriverProcess sampleCodes (.cdev ⟨.cdevRead 99 ⟨0, 0, fun _ ↦ 0⟩ ok, 0, 1⟩)
        ⟨storedBy 4294967093, [0]⟩ = .ok (.silent, ⟨storedBy 4294967093, [0]⟩) ∧
      ¬AnswersReads sampleCodes (storedBy 4294967093)) ∧
    (Reachable Calls (initial 4096) (storedBy 4294966298) ∧
      chardriverProcess sampleCodes (.cdev ⟨.cdevRead 99 ⟨0, 0, fun _ ↦ 0⟩ ok, 0, 1⟩)
        ⟨storedBy 4294966298, [0]⟩ = .ok (.panicked, ⟨storedBy 4294966298, [0]⟩) ∧
      ¬AnswersReads sampleCodes (storedBy 4294966298)) := by
  have hok : ¬sampleCodes.Control ok := by decide
  refine ⟨⟨Reachable.refl.next (calls_setBy _), rfl, fun hans ↦ ?_⟩,
    ⟨Reachable.refl.next (calls_setBy _), rfl, fun hans ↦ ?_⟩⟩
  · obtain ⟨r, s', -, -, hr⟩ := hans 99 ⟨0, 0, fun _ ↦ 0⟩ ok hok
    have hsent := hr 0 1 [0] (by decide)
    cases hsent
  · obtain ⟨r, s', -, -, hr⟩ := hans 99 ⟨0, 0, fun _ ↦ 0⟩ ok hok
    have hsent := hr 0 1 [0] (by decide)
    cases hsent

end Driver

end MinixClipboard
