import MinixClipboard.Driver.Chardriver
import MinixClipboard.Driver.LifeCycle
import Mathlib.Data.List.DropRight

/-!
# The main loop

`chardriver_task`: one message after the other is processed, until the driver faults or panics.
Requests for devices that have not been opened are spurious and are dropped; and since `open_devs`
is a static variable that no version hands over, so is every request of a client that has opened the
device before the driver was updated or restarted, until somebody opens it again.

`handedOn_iff_opened` says which requests are handed on, over any history of messages, updates and
crashes, and what becomes of the others. Those of one instance are calls of the driver, one after
the other, and what these return is what is replied (`calls_of_run`): everything that has been
proved of runs of calls holds of the main loop.
-/

namespace MinixClipboard

namespace Chardriver

open Driver

variable {codes : Codes}

/-! ## One message -/

/-- One round of `chardriver_task`. A panic is the end of it. -/
def Processes (codes : Codes) (s : State) (l : Message × Outcome) (s' : State) : Prop :=
  chardriverProcess codes l.1 s = .ok (l.2, s') ∧ l.2 ≠ .panicked

theorem isOpenDev_iff {minor : Int32} {s : State} :
    isOpenDev minor s = true ↔ minor ∈ s.openDevs := List.contains_iff_mem

def Message.Opens (minor : Int32) : Message → Prop
  | .cdev m => m.rq = .cdevOpen ∧ m.minor = minor
  | _ => False

/-- The request is handed on: its function is called, and what it returns is replied. -/
def HandsOn (codes : Codes) (m : CdevMessage) (o : Outcome) (s s' : Driver) : Prop :=
  ∃ r, callFunction codes m.rq s = .ok (r, s') ∧ o = chardriverReply codes m r

/-- The reply says this of this request. -/
def ReplyMessage.Answers (m : CdevMessage) (r : ℤ) : ReplyMessage → Prop
  | .cdevReply status id => status = r ∧ id = m.id
  | .cdevSel1Reply status minor => status = r ∧ minor = m.minor
  | .bdevReply _ _ => False

/-- What is replied is what the function has returned, to who has asked; orders to the dispatcher
are not passed on. -/
theorem chardriverReply_answers {m : CdevMessage} {r : ℤ}
    (hpanic : chardriverReply codes m r ≠ .panicked) :
    (¬codes.Control r → ∃ reply, chardriverReply codes m r = .sent reply ∧ reply.Answers m r) ∧
      (codes.Control r → chardriverReply codes m r = .silent) := by
  refine ⟨fun hr ↦ ?_, fun hr ↦ ?_⟩
  · rw [Codes.Control, not_or, not_or] at hr
    rw [chardriverReply, if_neg hr.1, if_neg hr.2.1, if_neg hr.2.2]
    cases m.rq <;> exact ⟨_, rfl, rfl, rfl⟩
  · have hsent := (chardriverReply_sent_iff m r).not.mpr (not_not_intro hr)
    cases ho : chardriverReply codes m r with
    | sent reply => exact absurd ⟨reply, ho⟩ hsent
    | silent => rfl
    | panicked => exact absurd ho hpanic

/-- What becomes of a request. -/
inductive Processed (codes : Codes) (s : State) (m : CdevMessage) (o : Outcome) (s' : State) : Prop
  /-- Its device has not been opened. -/
  | dropped : m.minor ∉ s.openDevs → m.rq ≠ .cdevOpen → o = .silent → s' = s → Processed ..
  /-- Its device has been opened. -/
  | handedOn : m.minor ∈ s.openDevs → HandsOn codes m o s.driver s'.driver →
      s'.openDevs = s.openDevs → Processed ..
  /-- It opens its device. -/
  | opened : m.minor ∉ s.openDevs → m.rq = .cdevOpen → s.openDevs.length < codes.maxNrOpenDevices →
      HandsOn codes m o s.driver s'.driver → s'.openDevs = s.openDevs ++ [m.minor] → Processed ..

variable {s s' : State} {m : CdevMessage} {o : Outcome}

theorem handsOn_of_serveRequest (h : serveRequest codes m s = .ok (o, s')) :
    HandsOn codes m o s.driver s'.driver ∧ s'.openDevs = s.openDevs := by
  rw [serveRequest] at h
  cases hcall : callFunction codes m.rq s.driver with
  | error e =>
    rw [hcall] at h
    simp at h
  | ok x =>
    rw [hcall] at h
    obtain ⟨rfl, rfl⟩ : chardriverReply codes m x.1 = o ∧ { s with driver := x.2 } = s' := by
      simpa using h
    exact ⟨⟨x.1, hcall, rfl⟩, rfl⟩

/-- The three cases are all there are, unless the dispatcher panics. -/
theorem Processes.processed (h : Processes codes s (.cdev m, o) s') : Processed codes s m o s' := by
  obtain ⟨h, hpanic⟩ := h
  rw [chardriverProcess] at h
  split at h
  · rename_i hopen
    obtain ⟨hon, hdevs⟩ := handsOn_of_serveRequest h
    exact .handedOn (isOpenDev_iff.mp hopen) hon hdevs
  rename_i hclosed
  have hnot : m.minor ∉ s.openDevs := isOpenDev_iff.not.mp hclosed
  by_cases hrq : m.rq = .cdevOpen
  · simp only [hrq] at h
    rw [setOpenDev] at h
    split at h
    · rename_i t hset
      obtain ⟨hlen, ht⟩ := Option.ite_none_left_eq_some.mp hset
      obtain rfl := Option.some_inj.mp ht
      obtain ⟨hon, hdevs⟩ := handsOn_of_serveRequest h
      exact .opened hnot hrq (Nat.not_le.mp hlen) hon hdevs
    · obtain ⟨rfl, -⟩ : Outcome.panicked = o ∧ s = s' := by simpa using h
      exact absurd rfl hpanic
  · have hdrop : (.silent, s) = (o, s') := by
      cases hm : m.rq <;> simp_all
    obtain ⟨rfl, rfl⟩ := Prod.mk.inj hdrop
    exact .dropped hnot hrq rfl rfl

theorem Processes.state_eq {msg : Message} (h : Processes codes s (msg, o) s')
    (hmsg : ∀ m, msg ≠ .cdev m) : s' = s := by
  cases msg with
  | other => exact (Prod.mk.inj (Except.ok.inj h.1)).2.symm
  | bdevOpen id => exact (Prod.mk.inj (Except.ok.inj h.1)).2.symm
  | cdev m => exact absurd rfl (hmsg m)

/-! ## The devices that are open -/

/-- What the code relies on about `open_devs`. -/
structure DevsInv (codes : Codes) (devs : List Int32) : Prop where
  nodup : devs.Nodup
  length_le : devs.length ≤ codes.maxNrOpenDevices

theorem DevsInv.of_processes (hI : DevsInv codes s.openDevs) {l : Message × Outcome}
    (h : Processes codes s l s') : DevsInv codes s'.openDevs := by
  obtain ⟨msg, o⟩ := l
  by_cases hmsg : ∀ m, msg ≠ .cdev m
  · rwa [h.state_eq hmsg]
  obtain ⟨m, hm⟩ := not_forall_not.mp hmsg
  obtain rfl := hm
  cases h.processed with
  | dropped _ _ _ hs => rwa [hs]
  | handedOn _ _ hdevs => rwa [hdevs]
  | opened hnot _ hlen _ hdevs =>
    rw [hdevs]
    refine ⟨List.nodup_append.mpr ⟨hI.nodup, List.nodup_singleton _, ?_⟩, by simp; omega⟩
    rintro a ha b hb rfl
    exact hnot (List.mem_singleton.mp hb ▸ ha)

/-- A device is open after a message if it was before, or the message has opened it. -/
theorem Processes.mem_openDevs_iff {l : Message × Outcome} (h : Processes codes s l s')
    (minor : Int32) : minor ∈ s'.openDevs ↔ minor ∈ s.openDevs ∨ l.1.Opens minor := by
  obtain ⟨msg, o⟩ := l
  by_cases hmsg : ∀ m, msg ≠ .cdev m
  · rw [h.state_eq hmsg, or_iff_left]
    cases msg with
    | cdev m => exact absurd rfl (hmsg m)
    | _ => exact id
  obtain ⟨m, hm⟩ := not_forall_not.mp hmsg
  obtain rfl := hm
  cases h.processed with
  | dropped _ hrq _ hs => rw [hs, or_iff_left fun hopens ↦ hrq hopens.1]
  | handedOn hmem _ hdevs =>
    rw [hdevs]
    refine ⟨Or.inl, fun hor ↦ hor.elim id ?_⟩
    rintro ⟨-, rfl⟩
    exact hmem
  | opened _ hrq _ _ hdevs =>
    rw [hdevs, List.mem_append, List.mem_singleton]
    exact or_congr_right ⟨fun heq ↦ ⟨hrq, heq.symm⟩, fun hopens ↦ hopens.2.symm⟩

/-! ## Updates and restarts -/

/-- A service with the dispatcher of the instance that runs. -/
structure Station where
  service : Service
  openDevs : List Int32

/-- What can happen to a station. -/
inductive Occurrence
  /-- A message is processed. -/
  | message (msg : Message) (o : Outcome)
  /-- A new version takes over. -/
  | liveUpdate (p : Place) (choice : ℕ → Option Addr)
  /-- The instance has crashed, and is started again. -/
  | crash (p : Place)

/-- One occurrence. The `open_devs` of a new instance are its own. -/
inductive Occurs (codes : Codes) : Station → Occurrence → Station → Prop
  | message {v : Service} {devs : List Int32} {msg : Message} {o : Outcome} {s' : State}
      (h : Processes codes ⟨v.driver, devs⟩ (msg, o) s') :
      Occurs codes ⟨v, devs⟩ (.message msg o) ⟨⟨s'.driver, v.store⟩, s'.openDevs⟩
  | liveUpdate {v v' : Service} {devs : List Int32} {p : Place} {choice : ℕ → Option Addr}
      (h : Lives v (.liveUpdate p choice) v') :
      Occurs codes ⟨v, devs⟩ (.liveUpdate p choice) ⟨v', []⟩
  | crash {v v' : Service} {devs : List Int32} {p : Place} (h : Lives v (.crash p) v') :
      Occurs codes ⟨v, devs⟩ (.crash p) ⟨v', []⟩

def Station.started (p : Place) (d : DataStore) : Station := ⟨Driver.started p d, []⟩

/-- Whether an occurrence leaves the instance running. -/
def Occurrence.isMessage : Occurrence → Bool
  | .message _ _ => true
  | _ => false

/-- What has happened since the last start of an instance. -/
def current (h : List (Event Station Occurrence)) : List (Event Station Occurrence) :=
  h.rtakeWhile fun e ↦ e.label.isMessage

/-- The device has been opened in this history. -/
def OpenedIn (h : List (Event Station Occurrence)) (minor : Int32) : Prop :=
  ∃ e ∈ h, ∃ msg o, e.label = .message msg o ∧ msg.Opens minor

theorem openedIn_concat {h : List (Event Station Occurrence)} {e : Event Station Occurrence}
    {msg : Message} {o : Outcome} (he : e.label = .message msg o) (minor : Int32) :
    OpenedIn (h ++ [e]) minor ↔ OpenedIn h minor ∨ msg.Opens minor := by
  constructor
  · rintro ⟨f, hf, msg', o', hl, hopens⟩
    rcases List.mem_append.mp hf with hf | hf
    · exact Or.inl ⟨f, hf, msg', o', hl, hopens⟩
    · obtain rfl := List.mem_singleton.mp hf
      obtain ⟨rfl, -⟩ : msg = msg' ∧ o = o' := by simpa [he] using hl
      exact Or.inr hopens
  · rintro (⟨f, hf, hrest⟩ | hopens)
    · exact ⟨f, List.mem_append_left _ hf, hrest⟩
    · exact ⟨e, List.mem_append_right _ List.mem_cons_self, msg, o, he, hopens⟩

section History

variable {p : Place} {d : DataStore} {h : List (Event Station Occurrence)} {u : Station}

theorem not_openedIn_current {e : Event Station Occurrence} (he : e.label.isMessage = false)
    (minor : Int32) : ¬OpenedIn (current (h ++ [e])) minor := by
  rw [current, List.rtakeWhile_concat_neg _ _ _ (by simp [he])]
  rintro ⟨f, hf, -⟩
  simp at hf

theorem current_concat {e : Event Station Occurrence} (he : e.label.isMessage = true) :
    current (h ++ [e]) = current h ++ [e] :=
  List.rtakeWhile_concat_pos _ _ _ he

/-- **What `open_devs` holds**: the devices that have been opened since the instance was started,
each once. -/
theorem openDevs_of_run (hrun : Run (Occurs codes) (Station.started p d) h u) :
    DevsInv codes u.openDevs ∧ ∀ minor, minor ∈ u.openDevs ↔ OpenedIn (current h) minor := by
  induction hrun with
  | nil =>
    refine ⟨⟨List.nodup_nil, Nat.zero_le _⟩, fun minor ↦ iff_of_false List.not_mem_nil ?_⟩
    rintro ⟨e, he, -⟩
    simp [current] at he
  | @snoc h u u' l _ hs ih =>
    obtain ⟨hI, hmem⟩ := ih
    cases hs with
    | @message v devs msg o s' hprocess =>
      refine ⟨hI.of_processes hprocess, fun minor ↦ ?_⟩
      rw [current_concat rfl, openedIn_concat rfl, ← hmem minor]
      exact hprocess.mem_openDevs_iff minor
    | liveUpdate hlu =>
      exact ⟨⟨List.nodup_nil, Nat.zero_le _⟩,
        fun minor ↦ iff_of_false List.not_mem_nil (not_openedIn_current rfl minor)⟩
    | crash hcrash =>
      exact ⟨⟨List.nodup_nil, Nat.zero_le _⟩,
        fun minor ↦ iff_of_false List.not_mem_nil (not_openedIn_current rfl minor)⟩

/-- **Which requests are handed on.** Over any history of messages, live updates and crashes, a
request whose device has been opened since the instance was started, if only by itself, is handed on
to the driver, and what the driver returns is replied under the request's own id, unless it is an
order to the dispatcher. Any other request is dropped, without a reply and without an effect. -/
theorem handedOn_iff_opened (hrun : Run (Occurs codes) (Station.started p d) h u) {j : ℕ}
    {e : Event Station Occurrence} (hj : h[j]? = some e) {m : CdevMessage} {o : Outcome}
    (hl : e.label = .message (.cdev m) o) :
    (OpenedIn (current (h.take (j + 1))) m.minor → ∃ r,
      callFunction codes m.rq e.pre.service.driver = .ok (r, e.post.service.driver) ∧
        (¬codes.Control r → ∃ reply, o = .sent reply ∧ reply.Answers m r) ∧
        (codes.Control r → o = .silent)) ∧
    (¬OpenedIn (current (h.take (j + 1))) m.minor → o = .silent ∧ e.post = e.pre) := by
  obtain ⟨hpre, hstep⟩ := hrun.event hj
  have hmem := (openDevs_of_run hpre).2 m.minor
  have htake : h.take (j + 1) = h.take j ++ [e] := by
    rw [List.take_add_one, hj]
    rfl
  rw [htake, current_concat (by rw [hl]; rfl), openedIn_concat hl, ← hmem]
  obtain ⟨u, l, u'⟩ := e
  obtain rfl : l = _ := hl
  cases hstep with
  | @message v devs msg _ s' hprocess =>
    have hpanic := hprocess.2
    cases hprocess.processed with
    | dropped hnot hrq ho hs =>
      refine ⟨fun hor ↦ ?_, fun _ ↦ ⟨ho, by rw [hs]⟩⟩
      exact hor.elim (fun hin ↦ absurd hin hnot) fun hopens ↦ absurd hopens.1 hrq
    | handedOn hin hon _ =>
      obtain ⟨r, hcall, rfl⟩ := hon
      exact ⟨fun _ ↦ ⟨r, hcall, chardriverReply_answers hpanic⟩,
        fun hor ↦ absurd (Or.inl hin) hor⟩
    | opened _ hrq _ hon _ =>
      obtain ⟨r, hcall, rfl⟩ := hon
      exact ⟨fun _ ↦ ⟨r, hcall, chardriverReply_answers hpanic⟩,
        fun hor ↦ absurd (Or.inr ⟨hrq, rfl⟩) hor⟩

end History

/-- Process 7 opens device 0. -/
def sampleOpen : CdevMessage := ⟨.cdevOpen, 0, 1⟩

def sampleQuery : CdevMessage := ⟨.cdevRead 99 ⟨0, 0, fun _ ↦ 0⟩ ok, 0, 2⟩

theorem processes_sampleOpen : Processes sampleCodes ⟨Driver.initial 4096, []⟩
    (.cdev sampleOpen, .sent (.cdevReply 0 1)) ⟨Driver.initial 4096, [0]⟩ := ⟨rfl, by simp⟩

theorem processes_sampleQuery : Processes sampleCodes ⟨Driver.initial 4096, [0]⟩
    (.cdev sampleQuery, .sent (.cdevReply 0 2)) ⟨Driver.initial 4096, [0]⟩ := ⟨rfl, by simp⟩

/-- After a crash the same query is dropped. -/
theorem handedOn_iff_opened_sample : ∃ h u,
    Run (Occurs sampleCodes) (Station.started samplePlace fun _ ↦ none) h u ∧
      ∃ e, h[3]? = some e ∧ e.label = .message (.cdev sampleQuery) .silent ∧
      ((OpenedIn (current (h.take 4)) 0 → ∃ r,
        callFunction sampleCodes sampleQuery.rq e.pre.service.driver
            = .ok (r, e.post.service.driver) ∧
          (¬sampleCodes.Control r → ∃ reply, Outcome.silent = .sent reply ∧
            reply.Answers sampleQuery r) ∧
          (sampleCodes.Control r → Outcome.silent = .silent)) ∧
      (¬OpenedIn (current (h.take 4)) 0 → Outcome.silent = .silent ∧ e.post = e.pre)) := by
  have hdropped : Processes sampleCodes ⟨load₀ 4096, []⟩ (.cdev sampleQuery, .silent)
      ⟨load₀ 4096, []⟩ := ⟨rfl, by simp⟩
  have hopened := @Occurs.message sampleCodes ⟨Driver.initial 4096, fun _ ↦ none⟩ [] _ _ _
    processes_sampleOpen
  have hrun := (((Run.nil.snoc hopened).snoc (.message processes_sampleQuery)).snoc
    (.crash (lives_crash _ samplePlace))).snoc (.message hdropped)
  exact ⟨_, _, hrun, _, rfl, rfl,
    handedOn_iff_opened (p := samplePlace) (j := 3) hrun rfl rfl⟩

/-! ## The calls of an instance -/

/-- The call of the driver that a request asks for. -/
def Rq.call? : Rq → Option Call
  | .cdevRead size msg copied => some (.read size msg copied)
  | .cdevWrite size copied msg choice => some (.write size copied msg choice)
  | _ => none

/-- A request that reaches the driver, with its call and what becomes of it. -/
structure Forwarded where
  request : CdevMessage
  call : Call
  outcome : Outcome

/-- What is forwarded of a message. -/
def forwarded? (e : Event State (Message × Outcome)) : Option Forwarded :=
  match e.label.1 with
  | .cdev m =>
    if isOpenDev m.minor e.pre then m.rq.call?.map fun c ↦ ⟨m, c, e.label.2⟩ else none
  | _ => none

theorem of_callFunction {rq : Rq} {r : ℤ} {s s' : Driver}
    (h : callFunction codes rq s = .ok (r, s')) :
    (rq.call? = none ∧ s' = s) ∨ ∃ c out, rq.call? = some c ∧ Calls s (c, (r, out)) s' := by
  have htransfer : ∀ c, doTransfer c s = .ok (r, s') → ∃ out, Calls s (c, (r, out)) s' := by
    intro c hc
    obtain ⟨⟨r', out⟩, hcall, rfl⟩ := Fallible.bind_pure_ok_iff.mp hc
    exact ⟨out, hcall⟩
  cases rq with
  | cdevRead size msg copied =>
    obtain ⟨out, hcalls⟩ := htransfer _ h
    exact Or.inr ⟨_, out, rfl, hcalls⟩
  | cdevWrite size copied msg choice =>
    obtain ⟨out, hcalls⟩ := htransfer _ h
    exact Or.inr ⟨_, out, rfl, hcalls⟩
  | _ => exact Or.inl ⟨rfl, (Fallible.of_pure_ok h).2.symm⟩

/-- One message is one call of the driver, or none. -/
theorem Processes.calls {e : Event State (Message × Outcome)}
    (h : Processes codes e.pre e.label e.post) :
    forwarded? e = none ∧ e.post.driver = e.pre.driver ∨
      ∃ f out r, forwarded? e = some f ∧ Calls e.pre.driver (f.call, (r, out)) e.post.driver ∧
        f.outcome = chardriverReply codes f.request r := by
  obtain ⟨s, ⟨msg, o⟩, s'⟩ := e
  by_cases hmsg : ∀ m, msg ≠ .cdev m
  · refine Or.inl ⟨?_, congrArg State.driver (h.state_eq hmsg)⟩
    cases msg with
    | cdev m => exact absurd rfl (hmsg m)
    | _ => rfl
  obtain ⟨m, hm⟩ := not_forall_not.mp hmsg
  obtain rfl := hm
  have hforwarded : forwarded? ⟨s, (.cdev m, o), s'⟩
      = if isOpenDev m.minor s then m.rq.call?.map fun c ↦ ⟨m, c, o⟩ else none := rfl
  cases h.processed with
  | dropped hnot _ _ hs =>
    refine Or.inl ⟨?_, congrArg State.driver hs⟩
    rw [hforwarded, if_neg (isOpenDev_iff.not.mpr hnot)]
  | handedOn hin hon _ =>
    obtain ⟨r, hcall, rfl⟩ := hon
    rw [hforwarded, if_pos (isOpenDev_iff.mpr hin)]
    rcases of_callFunction hcall with ⟨hnone, hs⟩ | ⟨c, out, hsome, hcalls⟩
    · exact Or.inl ⟨by rw [hnone]; rfl, hs⟩
    · exact Or.inr ⟨_, out, r, by rw [hsome]; rfl, hcalls, rfl⟩
  | opened hnot hrq _ hon _ =>
    obtain ⟨r, hcall, -⟩ := hon
    rw [hrq] at hcall
    refine Or.inl ⟨?_, (Fallible.of_pure_ok hcall).2.symm⟩
    rw [hforwarded, if_neg (isOpenDev_iff.not.mpr hnot)]

/-- **The main loop makes calls of the driver.** What an instance is sent, whatever devices are open
and whatever state it is in, comes to a run of calls: those of the requests that are forwarded, in
their order. And what becomes of each of these requests is what the result of its call says. -/
theorem calls_of_run {s₀ s : State} {h : List (Event State (Message × Outcome))}
    (hrun : Run (Processes codes) s₀ h s) :
    ∃ h', Run Calls s₀.driver h' s.driver ∧
      List.Forall₂ (fun f e ↦ e.label.1 = f.call ∧
        f.outcome = chardriverReply codes f.request e.label.2.1) (h.filterMap forwarded?) h' := by
  obtain ⟨h', t, hrun', hall, rfl⟩ : ∃ h' t, Run Calls s₀.driver h' t ∧
      List.Forall₂ (fun f e ↦ e.label.1 = f.call ∧
        f.outcome = chardriverReply codes f.request e.label.2.1) (h.filterMap forwarded?) h' ∧
      s.driver = t := by
    refine Run.simulate_visible forwarded? (R := fun s t ↦ s.driver = t) (Q := fun _ ↦ True) rfl
      (fun e t ht _ hstep ↦ ?_) hrun fun _ _ ↦ trivial
    subst ht
    rcases hstep.calls with ⟨hnone, heq⟩ | ⟨f, out, r, hsome, hcalls, ho⟩
    · exact Or.inl ⟨hnone, heq⟩
    · exact Or.inr ⟨f, _, _, hsome, hcalls, ⟨rfl, ho⟩, rfl⟩
  exact ⟨h', hrun', hall⟩

theorem calls_of_run_sample : ∃ h h',
    Run (Processes sampleCodes) ⟨Driver.initial 4096, []⟩ h ⟨Driver.initial 4096, [0]⟩ ∧
      h.length = 2 ∧ Run Calls (Driver.initial 4096) h' (Driver.initial 4096) ∧
      List.Forall₂ (fun f e ↦ e.label.1 = f.call ∧
        f.outcome = chardriverReply sampleCodes f.request e.label.2.1)
        (h.filterMap forwarded?) h' := by
  have hrun := (Run.nil.snoc processes_sampleOpen).snoc processes_sampleQuery
  obtain ⟨h', hrun', hall⟩ := calls_of_run hrun
  exact ⟨_, h', hrun, rfl, hrun', hall⟩

end Chardriver

end MinixClipboard
