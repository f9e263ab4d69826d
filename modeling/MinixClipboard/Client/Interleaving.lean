import MinixClipboard.Client.Announced

/-!
# Library calls in between one another

Any number of processes, each running one library call at a time, each system call atomic, in any
order. The state remembers of every process what its paste has last been told by a PID query and
what it has received, so that a run can be asked whose entries reached whom.

Who may paste an entry is checked by the client against the answer of its query, but the lock names
only the id. Between the two the slot can be emptied and filled again, and since free ids are handed
out last in first out, it usually is filled by the next copy. `Undisturbed` rules just this out:
that a process copies to the id somebody is about to lock, who may not paste from it. Nothing else
can go wrong (`permitted_of_undisturbed`), and this can (`not_permitted`).
-/

namespace MinixClipboard

open Fallible Program Driver

/-! ## Systems of processes -/

/-- A driver and the processes that use it. -/
structure System where
  driver : Driver
  /-- What is left of the library call a process makes. -/
  running : Int32 → Option (Client Result)
  /-- The id and the owner the paste of a process has learnt from its query, until it locks. -/
  asked : Int32 → Option (UInt32 × Int32)
  /-- The owner and the bytes of the entry the paste of a process has taken. -/
  received : Int32 → Option (Int32 × List CChar)

/-- What can happen next. -/
inductive Move
  /-- A process makes a library call. -/
  | start (p : Int32) (c : LibCall) (locals : Locals)
  /-- A process makes the next system call of its library call. -/
  | sysCall (p : Int32) (env : Env)
  /-- A library call of a process returns. -/
  | finish (p : Int32)

/-- What a process has learnt about the owner of an entry after a system call. -/
def noteAsked (asked : Option (UInt32 × Int32)) : (op : SysCall) → op.Answer →
    Option (UInt32 × Int32)
  | .read _ _ size, x => if isPidQuery size then some (decodeId size, x.1) else asked
  | .write _ _ size, _ => if size = lockSize then none else asked
  | _, _ => asked

/-- What a process has received after a system call that found this driver. -/
def noteReceived (s : Driver) (p : Int32) (received : Option (Int32 × List CChar)) :
    (op : SysCall) → op.Answer → Option (Int32 × List CChar)
  | .read _ _ size, x =>
    if isPidQuery size = false ∧ x.1 = 0 then
      (s.lock? p).map fun i ↦ ((s.entries i).sourcePid, s.heap.contents (s.entries i).buffer)
    else received
  | _, _ => received

def System.move (ancestor : Int32 → Int32 → Bool) (σ : System) : Move → Option System
  | .start p c locals =>
    if 0 < p ∧ (σ.running p).isNone then
      some { σ with
        running := Function.update σ.running p (some (c.program locals))
        asked := Function.update σ.asked p none
        received := Function.update σ.received p none }
    else none
  | .sysCall p env =>
    match σ.running p with
    | some (.call op next) =>
      match handle ancestor env p op σ.driver with
      | .ok (x, driver) => some
          { driver := driver
            running := Function.update σ.running p (some (next x))
            asked := Function.update σ.asked p (noteAsked (σ.asked p) op x)
            received :=
              Function.update σ.received p (noteReceived σ.driver p (σ.received p) op x) }
      | .error _ => none
    | _ => none
  | .finish p =>
    match σ.running p with
    | some (.ret _) => some { σ with
        running := Function.update σ.running p none
        asked := Function.update σ.asked p none }
    | _ => none

def System.Moves (ancestor : Int32 → Int32 → Bool) (σ : System) (m : Move) (σ' : System) : Prop :=
  σ.move ancestor m = some σ'

/-- A freshly started driver that nobody uses. -/
def System.initial (addr : Addr) : System where
  driver := Driver.initial addr
  running _ := none
  asked _ := none
  received _ := none

/-- What a move is, and what it changes of the driver and of what is left to run. -/
theorem System.cases_of_moves {ancestor : Int32 → Int32 → Bool} {σ σ' : System} {m : Move}
    (hm : σ.Moves ancestor m σ') :
    (∃ q c locals, m = .start q c locals ∧ σ'.driver = σ.driver ∧
      σ'.running = Function.update σ.running q (some (c.program locals))) ∨
    (∃ q env op next x, m = .sysCall q env ∧ σ.running q = some (.call op next) ∧
      handle ancestor env q op σ.driver = .ok (x, σ'.driver) ∧
      σ'.running = Function.update σ.running q (some (next x))) ∨
    ∃ q, m = .finish q ∧ σ'.driver = σ.driver ∧
      σ'.running = Function.update σ.running q none := by
  rw [System.Moves] at hm
  cases m with
  | start q c locals =>
    rw [System.move, Option.ite_none_right_eq_some] at hm
    obtain rfl := Option.some_inj.mp hm.2
    exact Or.inl ⟨q, c, locals, rfl, rfl, rfl⟩
  | sysCall q env =>
    simp only [System.move] at hm
    split at hm
    case h_2 => cases hm
    rename_i op next hrun
    split at hm
    case h_2 => cases hm
    rename_i x driver hstep
    obtain rfl := Option.some_inj.mp hm
    exact Or.inr (Or.inl ⟨q, env, op, next, x, rfl, hrun, hstep, rfl⟩)
  | finish q =>
    simp only [System.move] at hm
    split at hm
    case h_2 => cases hm
    obtain rfl := Option.some_inj.mp hm
    exact Or.inr (Or.inr ⟨q, rfl, rfl, rfl⟩)

/-! ## What a request does to others -/

/-- The requests a process sends for itself. -/
def Driver.Request.From (q : Int32) : Request → Prop
  | .set msg _ => msg.pid.toInt32 = q
  | .lock msg => msg.pid.toInt32 = q
  | .get pid _ => pid = q
  | .query _ => True

section Others

variable {s s' : Driver} {p q : Int32} {i j : Fin bufMaxCount} {l : Request × Reply}

theorem owner_of_serves (hI : Inv s) (h : Serves s l s') (j : Fin bufMaxCount) :
    (s'.entries j).sourcePid = (s.entries j).sourcePid ∨
      ∃ msg choice, l.1 = .set msg choice ∧ (s'.entries j).sourcePid = msg.pid.toInt32 ∧
        s.availableEntries.top s.addr = .ok (UInt32.ofNat j.val) := by
  rcases entry_of_serves hI h j with ⟨_, _, he, -⟩ | ⟨msg, choice, a, hl, -, htop, he, -⟩
  · exact Or.inl (by rw [he])
  · exact Or.inr ⟨msg, choice, hl, by rw [he]; rfl, htop⟩

theorem keeps_of_serves (hI : Inv s) (hi : LockedBy s i p) (h : Serves s l s')
    (hfrom : l.1.From q) (hpq : p ≠ q) : Keeps s s' i p := by
  refine keeps_of_run hI hi (Run.nil.snoc h) fun e he hby ↦ ?_
  obtain rfl := List.mem_singleton.mp he
  obtain ⟨req, r⟩ := l
  cases req with
  | set => exact hby
  | lock msg => exact hpq (hby.symm.trans hfrom)
  | get pid msg => exact hpq (hby.symm.trans hfrom)
  | query => exact hby

end Others

/-! ## Where a process is -/

/-- How far a library call of process `p` has come, and what it can rely on there: from the query to
the lock, that whoever owns the slot now may be pasted from, if its answer said so; from the lock to
the get, that the entry is its own; and after the get, that what it has received may be pasted. -/
inductive StageOf (ancestor : Int32 → Int32 → Bool) (s : Driver) (p : Int32)
    (asked : Option (UInt32 × Int32)) (received : Option (Int32 × List CChar))
    (prog : Client Result) : Prop
  | paste (id bufferLen : UInt32) (locals : Locals) :
      prog = (LibCall.paste id bufferLen).program locals → StageOf ..
  | pasteQuery (id bufferLen : UInt32) (locals : Locals) (fd : Int32) :
      prog = pasteQuery id bufferLen locals fd → id.toNat < bufMaxCount → StageOf ..
  | pasteGetpid (i : Fin bufMaxCount) (id bufferLen : UInt32) (locals : Locals) (fd src : Int32)
      (mg : GetMsg) : prog = pasteGetpid id bufferLen locals fd src mg → id.toNat = i →
      asked = some (id, src) →
      (Permits ancestor src p → Permits ancestor (s.entries i).sourcePid p) → StageOf ..
  | pasteCheck (i : Fin bufMaxCount) (id bufferLen : UInt32) (locals : Locals) (fd src : Int32)
      (mg : GetMsg) : prog = pasteCheck id bufferLen locals fd src mg p → id.toNat = i →
      asked = some (id, src) →
      (Permits ancestor src p → Permits ancestor (s.entries i).sourcePid p) → StageOf ..
  | pasteLock (i : Fin bufMaxCount) (id bufferLen : UInt32) (locals : Locals) (fd src : Int32)
      (mg : GetMsg) : prog = pasteLock id bufferLen locals fd p mg → id.toNat = i →
      asked = some (id, src) → Permits ancestor src p →
      Permits ancestor (s.entries i).sourcePid p → StageOf ..
  | pasteGet (i : Fin bufMaxCount) (fd : Int32) (mg : GetMsg) :
      prog = pasteGet fd p mg → LockedBy s i p →
      Permits ancestor (s.entries i).sourcePid p → StageOf ..
  | pasteClose (fd : Int32) (ret : UInt32) (written : List CChar) (src : Int32) :
      prog = pasteClose fd ret written → received = some (src, written) →
      Permits ancestor src p → StageOf ..
  | pasted (ret : UInt32) (written : List CChar) :
      prog = .ret (.pasted ret written) →
      (ret = 0 → ∃ src, received = some (src, written) ∧ Permits ancestor src p) → StageOf ..
  | copy (buffer : Memory) (bufferLen : UInt32) (locals : Locals) :
      prog = (LibCall.copy buffer bufferLen).program locals → StageOf ..
  | copyGetpid (buffer : Memory) (bufferLen : UInt32) (locals : Locals) (fd : Int32) :
      prog = copyGetpid buffer bufferLen locals fd → StageOf ..
  | copySet (buffer : Memory) (bufferLen : UInt32) (locals : Locals) (fd : Int32) :
      prog = copySet buffer bufferLen locals fd p → StageOf ..
  | copyClose (fd : Int32) (ret : UInt32) : prog = copyClose fd ret → StageOf ..
  | copied (ret : UInt32) : prog = .ret (.copied ret) → StageOf ..

section Steps

variable {ancestor : Int32 → Int32 → Bool} {env : Env} {p q : Int32} {s s' : Driver}
  {asked : Option (UInt32 × Int32)} {received : Option (Int32 × List CChar)} {prog : Client Result}
  {i : Fin bufMaxCount}

theorem isPidQuery_of_lt {id : UInt32} (hid : id.toNat < bufMaxCount) :
    isPidQuery (encodeId id) = true :=
  decide_eq_true (UInt32.lt_iff_toNat_lt.mpr (hid.trans (by decide)))

theorem isPidQuery_of_pos (hp : 0 < p) : isPidQuery (encodePid p.toUInt32) = false := by
  refine isPidQuery_encodePid ?_
  rw [Int32.toNat_toUInt32_of_le (Int32.le_of_lt hp)]
  exact p.toNatClampNeg_lt

theorem lock_of_handle {ml : LockMsg} {fd x : Int32} {rest : Memory}
    (h : handle ancestor env p (.write fd (ml.toWrite rest) lockSize) s = .ok (x, s')) :
    ∃ r, doClipboardLock ml s = .ok (r, s') ∧ Int32.ofInt r = x := by
  rw [handle_lock] at h
  exact bind_pure_ok_iff.mp h

theorem set_of_handle {ms : SetMsg} {fd x : Int32}
    (h : handle ancestor env p (.write fd ms.toWrite setSize) s = .ok (x, s')) :
    ∃ r, doClipboardSet (env.copyFrom ms.toWrite).set env.choice s = .ok (r, s') ∧
      Int32.ofInt r = x := by
  rw [handle_set] at h
  exact bind_pure_ok_iff.mp h

theorem get_of_handle (hI : Inv s) (hp : 0 < p) (hi : LockedBy s i p) {fd : Int32} {mg : GetMsg}
    {x : Int32 × GetMsg}
    (h : handle ancestor env p (.read fd mg (encodePid p.toUInt32)) s = .ok (x, s')) :
    x.1 = 0 ∧ x.2.buffer.bytes x.2.bufferLen.toNat = s.heap.contents (s.entries i).buffer ∧
      ∃ l, Serves s l s' ∧ l.1.From p ∧ ∀ msg choice, l.1 ≠ .set msg choice := by
  have hread := clipboardRead_of_get? (get?_encodePid (Int32.le_of_lt hp) env.reply ok)
  have hlock := lock?_eq_some_of_table hI.exclusive (lockedBy_iff_table.mp hi)
  rcases doClipboardGet_spec hI p env.reply with ⟨hnone, -⟩ | ⟨k, t, hsome, hok, -⟩
  · rw [hlock] at hnone
    simp at hnone
  obtain rfl : i = k := by simpa [hlock] using hsome
  have hserves : Serves s (.get p env.reply, ⟨ok, some (filled env.reply _ _)⟩) t :=
    serves_get_iff.mpr ⟨_, hok, rfl⟩
  by_cases hlen : (s.entries i).bufferLen.toNat ≤ entryLenLimit
  · obtain ⟨mg', t', hget, hbytes, -⟩ :=
      handle_get_of_lockedBy ancestor env hI (Int32.le_of_lt hp) hi hlen fd mg
    have hx : ((0, mg'), t') = (x, s') := Except.ok.inj (hget.symm.trans h)
    rw [handle, hread, bind_apply, bind_ok hok, finishRead, if_pos rfl, filled,
      if_neg (Nat.not_lt.mpr hlen)] at h
    obtain ⟨-, rfl⟩ : _ ∧ t = s' := of_pure_ok h
    obtain ⟨rfl, -⟩ := Prod.mk.inj hx
    exact ⟨rfl, hbytes, _, hserves, rfl, by simp⟩
  · rw [handle, hread, bind_apply, bind_ok hok, finishRead, if_pos rfl, filled,
      if_pos (Nat.not_le.mp hlen)] at h
    simp [throw_apply] at h

theorem query_of_handle {id : UInt32} (hid : id.toNat < bufMaxCount) {fd : Int32} {mg : GetMsg}
    {x : Int32 × GetMsg} (h : handle ancestor env p (.read fd mg (encodeId id)) s = .ok (x, s')) :
    x.1 = (s.entries ⟨id.toNat, hid⟩).sourcePid ∧ s' = s := by
  rw [handle_query hid, Except.ok.injEq, Prod.mk.injEq] at h
  exact ⟨congrArg Prod.fst h.1.symm, h.2.symm⟩

/-- What a system call of process `p` does to the driver: nothing, or what a request of its own
does, and that is a set only if the system call is. -/
def Effect (p : Int32) (op : SysCall) (s s' : Driver) : Prop :=
  s' = s ∨ ∃ l, Serves s l s' ∧ l.1.From p ∧
    ∀ msg choice, l.1 = .set msg choice → ∃ fd m, op = .write fd m setSize

/-- **A system call takes its process from one stage to the next.** -/
theorem StageOf.next {op : SysCall} {next : op.Answer → Client Result} {x : op.Answer}
    (hI : Inv s) (hp : 0 < p) (h : StageOf ancestor s p asked received (.call op next))
    (hstep : handle ancestor env p op s = .ok (x, s')) :
    Effect p op s s' ∧
      StageOf ancestor s' p (noteAsked asked op x) (noteReceived s p received op x) (next x) := by
  have hminus : ¬((-1 : UInt32) = 0) := by decide
  cases h with
  | paste id bufferLen locals hprog =>
    rw [program_paste] at hprog
    cases hprog
    refine ⟨Or.inl (of_pure_ok hstep).2.symm, ?_⟩
    by_cases hfd : x < 0
    · exact .pasted _ _ (if_pos hfd) fun h ↦ absurd h hminus
    by_cases hid : id.toNat ≥ bufMaxCount
    · exact .pasted _ _ ((if_neg hfd).trans (if_pos hid)) fun h ↦ absurd h hminus
    · exact .pasteQuery _ _ _ _ ((if_neg hfd).trans (if_neg hid)) (Nat.not_le.mp hid)
  | pasteQuery id bufferLen locals fd hprog hid =>
    -- from here on, the owner the query names and the owner of the slot are two things
    cases hprog
    obtain ⟨hx, rfl⟩ := query_of_handle hid hstep
    refine ⟨Or.inl rfl, ?_⟩
    by_cases hsrc : x.1 < 0
    · exact .pasted _ _ (if_pos hsrc) fun h ↦ absurd h hminus
    · refine .pasteGetpid ⟨id.toNat, hid⟩ id bufferLen locals fd x.1 x.2 (if_neg hsrc) rfl
        (if_pos (isPidQuery_of_lt hid)) ?_
      rw [hx]
      exact fun h ↦ h
  | pasteGetpid i id bufferLen locals fd src mg hprog hid hasked hperm =>
    cases hprog
    obtain ⟨rfl, rfl⟩ := of_pure_ok hstep
    exact ⟨Or.inl rfl, .pasteCheck i id bufferLen locals fd src mg rfl hid hasked hperm⟩
  | pasteCheck i id bufferLen locals fd src mg hprog hid hasked hperm =>
    cases hprog
    obtain ⟨rfl, rfl⟩ := of_pure_ok hstep
    refine ⟨Or.inl rfl, ?_⟩
    by_cases hsrc : Permits ancestor src p
    · exact .pasteLock i id bufferLen locals fd src mg (if_neg (by simpa using hsrc)) hid hasked
        hsrc (hperm hsrc)
    · exact .pasted _ _ (if_pos (by simpa using hsrc)) fun h ↦ absurd h hminus
  | pasteLock i id bufferLen locals fd src mg hprog hid hasked hsrc hperm =>
    cases hprog
    obtain ⟨r, hlock, rfl⟩ := lock_of_handle hstep
    have hserves := serves_lock_iff.mpr ⟨r, hlock, rfl⟩
    refine ⟨Or.inr ⟨_, hserves, Int32.toInt32_toUInt32 p, by simp⟩, ?_⟩
    -- a refused lock ends the paste; a granted one is on the slot the id names, with its owner
    obtain ⟨-, ⟨rfl, -⟩ | ⟨k, v, rfl, -⟩⟩ := doClipboardLock_refines hI hlock
    · exact .pasted _ _ (if_pos (show Int32.ofInt (-1) < 0 by decide)) fun h ↦ absurd h (by decide)
    · obtain ⟨k, hk, hlocked, hpay⟩ := lockedBy_of_serves hI hserves
      obtain rfl : i = k := Fin.ext (hid.symm.trans hk)
      refine .pasteGet i fd mg (if_neg (show ¬Int32.ofInt ok < 0 by decide)) ?_ ?_
      · rwa [Int32.toInt32_toUInt32] at hlocked
      · rwa [show (s'.entries i).sourcePid = (s.entries i).sourcePid from
          congrArg Payload.sourcePid hpay]
  | pasteGet i fd mg hprog hlocked hperm =>
    cases hprog
    obtain ⟨hx, hbytes, l, hserves, hfrom, hset⟩ := get_of_handle hI hp hlocked hstep
    refine ⟨Or.inr ⟨l, hserves, hfrom, fun msg choice h ↦ absurd h (hset msg choice)⟩, ?_⟩
    refine .pasteClose fd x.1.toUInt32 _ (s.entries i).sourcePid (if_neg ?_) ?_ hperm
    · rw [hx]
      decide
    · rw [noteReceived, if_pos ⟨isPidQuery_of_pos hp, hx⟩, hbytes,
        lock?_eq_some_of_table hI.exclusive (lockedBy_iff_table.mp hlocked)]
      rfl
  | pasteClose fd ret written src hprog hreceived hperm =>
    cases hprog
    obtain ⟨-, rfl⟩ := of_pure_ok hstep
    exact ⟨Or.inl rfl, .pasted ret written rfl fun _ ↦ ⟨src, hreceived, hperm⟩⟩
  | pasted ret written hprog => cases hprog
  | copy buffer bufferLen locals hprog =>
    rw [program_copy] at hprog
    split at hprog
    · cases hprog
    cases hprog
    refine ⟨Or.inl (of_pure_ok hstep).2.symm, ?_⟩
    by_cases hfd : x < 0
    · exact .copied _ (if_pos hfd)
    · exact .copyGetpid _ _ _ _ (if_neg hfd)
  | copyGetpid buffer bufferLen locals fd hprog =>
    cases hprog
    obtain ⟨rfl, rfl⟩ := of_pure_ok hstep
    exact ⟨Or.inl rfl, .copySet buffer bufferLen locals fd rfl⟩
  | copySet buffer bufferLen locals fd hprog =>
    cases hprog
    obtain ⟨r, hset, rfl⟩ := set_of_handle hstep
    have hserves := serves_set_iff.mpr ⟨r, hset, rfl⟩
    exact ⟨Or.inr ⟨_, hserves, Int32.toInt32_toUInt32 p, fun _ _ _ ↦ ⟨_, _, rfl⟩⟩,
      .copyClose fd _ rfl⟩
  | copyClose fd ret hprog =>
    cases hprog
    obtain ⟨-, rfl⟩ := of_pure_ok hstep
    exact ⟨Or.inl rfl, .copied ret rfl⟩
  | copied ret hprog => cases hprog

/-- A paste that has returned `0` is at its last stage: every other one has a call to make. -/
theorem StageOf.received_of_pasted {written : List CChar}
    (h : StageOf ancestor s p asked received (.ret (.pasted 0 written))) :
    ∃ src, received = some (src, written) ∧ Permits ancestor src p := by
  cases h with
  | pasted ret written' hprog hall =>
    cases hprog
    exact hall rfl
  | paste id bufferLen locals hprog =>
    rw [program_paste] at hprog
    cases hprog
  | copy buffer bufferLen locals hprog =>
    rw [program_copy] at hprog
    split at hprog <;> cases hprog
  | pasteQuery id bufferLen locals fd hprog => cases hprog
  | pasteGetpid i id bufferLen locals fd src mg hprog => cases hprog
  | pasteCheck i id bufferLen locals fd src mg hprog => cases hprog
  | pasteLock i id bufferLen locals fd src mg hprog => cases hprog
  | pasteGet i fd mg hprog => cases hprog
  | pasteClose fd ret written' src hprog => cases hprog
  | copyGetpid buffer bufferLen locals fd hprog => cases hprog
  | copySet buffer bufferLen locals fd hprog => cases hprog
  | copyClose fd ret hprog => cases hprog
  | copied ret hprog => cases hprog

/-- **A system call of another process leaves the stage be**, unless it fills the slot this process
is about to lock. -/
theorem StageOf.frame {op : SysCall} (hI : Inv s) (hpq : p ≠ q)
    (h : StageOf ancestor s p asked received prog) (heffect : Effect q op s s')
    (hset : ∀ fd m, op = .write fd m setSize → ∀ id src, asked = some (id, src) →
      s.availableEntries.top s.addr = .ok id → Permits ancestor src p → Permits ancestor q p) :
    StageOf ancestor s' p asked received prog := by
  obtain rfl | ⟨l, hserves, hfrom, hop⟩ := heffect
  · exact h
  have howner : ∀ (i : Fin bufMaxCount) (id : UInt32) (src : Int32), id.toNat = i →
      asked = some (id, src) → Permits ancestor src p →
      Permits ancestor (s.entries i).sourcePid p → Permits ancestor (s'.entries i).sourcePid p := by
    intro i id src hid hasked hsrc hperm
    rcases owner_of_serves hI hserves i with heq | ⟨msg, choice, hl, hnew, htop⟩
    · rwa [heq]
    · -- the slot is filled by a copy of `q`, so `q` is its new owner
      obtain ⟨fd, m, rfl⟩ := hop msg choice hl
      have hi : UInt32.ofNat i.val = id := by rw [← hid, UInt32.ofNat_toNat]
      rw [hl] at hfrom
      rw [hnew, show msg.pid.toInt32 = q from hfrom]
      exact hset fd m rfl id src hasked (hi ▸ htop) hsrc
  cases h with
  | paste id bufferLen locals hprog => exact .paste id bufferLen locals hprog
  | pasteQuery id bufferLen locals fd hprog hid =>
    exact .pasteQuery id bufferLen locals fd hprog hid
  | pasteGetpid i id bufferLen locals fd src mg hprog hid hasked hperm =>
    exact .pasteGetpid i id bufferLen locals fd src mg hprog hid hasked fun hsrc ↦
      howner i id src hid hasked hsrc (hperm hsrc)
  | pasteCheck i id bufferLen locals fd src mg hprog hid hasked hperm =>
    exact .pasteCheck i id bufferLen locals fd src mg hprog hid hasked fun hsrc ↦
      howner i id src hid hasked hsrc (hperm hsrc)
  | pasteLock i id bufferLen locals fd src mg hprog hid hasked hsrc hperm =>
    exact .pasteLock i id bufferLen locals fd src mg hprog hid hasked hsrc
      (howner i id src hid hasked hsrc hperm)
  | pasteGet i fd mg hprog hlocked hperm =>
    have hkeeps := keeps_of_serves hI hlocked hserves hfrom hpq
    refine .pasteGet i fd mg hprog hkeeps.locked ?_
    rwa [hkeeps.entry]
  | pasteClose fd ret written src hprog hreceived hperm =>
    exact .pasteClose fd ret written src hprog hreceived hperm
  | pasted ret written hprog hall => exact .pasted ret written hprog hall
  | copy buffer bufferLen locals hprog => exact .copy buffer bufferLen locals hprog
  | copyGetpid buffer bufferLen locals fd hprog =>
    exact .copyGetpid buffer bufferLen locals fd hprog
  | copySet buffer bufferLen locals fd hprog => exact .copySet buffer bufferLen locals fd hprog
  | copyClose fd ret hprog => exact .copyClose fd ret hprog
  | copied ret hprog => exact .copied ret hprog

end Steps

/-! ## Runs -/

/-- The driver's invariant, and every running process at some stage of its call. -/
structure System.Inv (ancestor : Int32 → Int32 → Bool) (σ : System) : Prop where
  driver : Driver.Inv σ.driver
  stage : ∀ p prog, σ.running p = some prog →
    0 < p ∧ StageOf ancestor σ.driver p (σ.asked p) (σ.received p) prog

/-- The next move is not a copy, by some `q`, to a slot that another process has asked about and not
locked yet, where it may paste from the owner it was told of and may not paste from `q`. -/
def Undisturbed (ancestor : Int32 → Int32 → Bool) (σ : System) (m : Move) : Prop :=
  ∀ q env fd msg next, m = .sysCall q env →
    σ.running q = some (.call (.write fd msg setSize) next) →
    ∀ p id src, σ.asked p = some (id, src) →
      σ.driver.availableEntries.top σ.driver.addr = .ok id →
      Permits ancestor src p → Permits ancestor q p

section Runs

variable {ancestor : Int32 → Int32 → Bool} {σ σ' : System} {m : Move} {addr : Addr}

theorem System.inv_initial (ha : Stack.Fits addr) : (System.initial addr).Inv ancestor :=
  ⟨Driver.inv_initial ha, by simp [System.initial]⟩

theorem Effect.inv {p : Int32} {op : SysCall} {s s' : Driver} (hI : Driver.Inv s)
    (h : Effect p op s s') : Driver.Inv s' := by
  obtain rfl | ⟨l, hserves, -⟩ := h
  · exact hI
  · exact (serves_refines (e := ⟨s, l, s'⟩) hI hserves).1

theorem System.Inv.update (hI : σ.Inv ancestor) {s' : Driver} (hs' : Driver.Inv s') {p : Int32}
    {prog : Option (Client Result)} {asked : Option (UInt32 × Int32)}
    {received : Option (Int32 × List CChar)}
    (hp : ∀ c, prog = some c → 0 < p ∧ StageOf ancestor s' p asked received c)
    (hothers : ∀ q c, q ≠ p → StageOf ancestor σ.driver q (σ.asked q) (σ.received q) c →
      StageOf ancestor s' q (σ.asked q) (σ.received q) c) :
    System.Inv ancestor
      { driver := s'
        running := Function.update σ.running p prog
        asked := Function.update σ.asked p asked
        received := Function.update σ.received p received } := by
  refine ⟨hs', fun q c hq ↦ ?_⟩
  by_cases hqp : q = p
  · subst hqp
    simp only [Function.update_self] at hq ⊢
    exact hp c hq
  · simp only [Function.update_of_ne hqp] at hq ⊢
    obtain ⟨hq₀, hstage⟩ := hI.stage q c hq
    exact ⟨hq₀, hothers q c hqp hstage⟩

/-- **One undisturbed move** keeps every process at a stage of its call. -/
theorem System.Inv.move (hI : σ.Inv ancestor) (hQ : Undisturbed ancestor σ m)
    (hm : σ.Moves ancestor m σ') : σ'.Inv ancestor := by
  rw [System.Moves] at hm
  cases m with
  | start p c locals =>
    rw [System.move, Option.ite_none_right_eq_some] at hm
    obtain ⟨⟨hp, -⟩, hm⟩ := hm
    obtain rfl := Option.some_inj.mp hm
    refine hI.update hI.driver (fun prog hprog ↦ ⟨hp, ?_⟩) fun _ _ _ hstage ↦ hstage
    obtain rfl := Option.some_inj.mp hprog
    cases c with
    | copy buffer bufferLen => exact .copy buffer bufferLen locals rfl
    | paste id bufferLen => exact .paste id bufferLen locals rfl
  | sysCall p env =>
    simp only [System.move] at hm
    split at hm
    case h_2 => cases hm
    rename_i op next hrun
    split at hm
    case h_2 => cases hm
    rename_i x driver hstep
    obtain rfl := Option.some_inj.mp hm
    obtain ⟨hp, hstage⟩ := hI.stage p _ hrun
    obtain ⟨heffect, hnext⟩ := hstage.next hI.driver hp hstep
    refine hI.update (heffect.inv hI.driver) (fun prog hprog ↦ ?_) fun q prog hqp hstage' ↦ ?_
    · obtain rfl := Option.some_inj.mp hprog
      exact ⟨hp, hnext⟩
    · -- only a copy can take something from the others, and an undisturbed one does not
      refine hstage'.frame hI.driver hqp heffect fun fd msg hop id src hasked ↦ ?_
      subst hop
      exact hQ p env fd msg next rfl hrun q id src hasked
  | finish p =>
    simp only [System.move] at hm
    split at hm
    case h_2 => cases hm
    obtain rfl := Option.some_inj.mp hm
    rw [← Function.update_eq_self p σ.received]
    exact hI.update hI.driver (fun prog hprog ↦ by cases hprog) fun _ _ _ hstage ↦ hstage

/-- **Access control.** In every run of any number of processes in which no copy fills a slot that a
paste of somebody else has been checked for, what a paste that returns `0` has received may be
pasted by its process. -/
theorem permitted_of_undisturbed (ha : Stack.Fits addr) {h : List (Event System Move)}
    (hrun : Run (System.Moves ancestor) (System.initial addr) h σ)
    (hQ : ∀ e ∈ h, Undisturbed ancestor e.pre e.label) (p : Int32) (written : List CChar)
    (hret : σ.running p = some (.ret (.pasted 0 written))) :
    ∃ src, σ.received p = some (src, written) ∧ Permits ancestor src p := by
  have hI : σ.Inv ancestor := hrun.invariant_of (Q := fun e ↦ Undisturbed ancestor e.pre e.label)
    (System.inv_initial ha) (fun _ hI hQ hm ↦ hI.move hQ hm) hQ
  exact (hI.stage p _ hret).2.received_of_pasted

end Runs

/-! ## Two runs -/

/-- What the library call of a process has returned. -/
def System.result (σ : System) (p : Int32) : Option Result :=
  match σ.running p with
  | some (.ret r) => some r
  | _ => none

theorem System.result_eq_some {σ : System} {p : Int32} {r : Result} (h : σ.result p = some r) :
    σ.running p = some (.ret r) := by
  rw [result] at h
  split at h
  · rename_i r' hrun
    obtain rfl := Option.some_inj.mp h
    exact hrun
  · cases h

/-- A library call of a process, and its first `n` system calls, with a new block at this address if
one is needed. -/
def sampleCall (p : Int32) (c : LibCall) (n : ℕ) (a : Addr) : List Move :=
  .start p c zeroLocals :: List.replicate n (.sysCall p (sampleEnv a))

/-- Only process 1 copies. -/
def quiet (σ : System) : Move → Bool
  | .sysCall q _ =>
    match σ.running q with
    | some (.call (.write _ _ size) _) => size != setSize || q == 1
    | _ => true
  | _ => true

theorem undisturbed_of_quiet {σ : System} {m : Move} (h : quiet σ m = true) :
    Undisturbed (fun a _ ↦ a == 1) σ m := by
  rintro q env fd msg next rfl hrun p id src - - -
  have hq : q = 1 := by simpa [quiet, hrun] using h
  exact Or.inr (by simp [hq])

/-- Process 1 copies one byte, and process 7 pastes it. -/
def sampleMoves : List Move :=
  sampleCall 1 (.copy (fun _ ↦ 65) 1) 4 8 ++ sampleCall 7 (.paste 99 1) 7 16

/-- Process 1 is everybody's ancestor. -/
theorem permitted_of_undisturbed_sample : ∃ h σ,
    Run (System.Moves fun a _ ↦ a == 1) (System.initial 4096) h σ ∧
      σ.running 7 = some (.ret (.pasted 0 [65])) ∧
      ∃ src, σ.received 7 = some (src, [65]) ∧ Permits (fun a _ ↦ a == 1) src 7 := by
  have hmoves : (sampleMoves.foldlM
      (fun σ m ↦ if quiet σ m then σ.move (fun a _ ↦ a == 1) m else none)
      (System.initial 4096)).map (System.result · 7) = some (some (.pasted 0 [65])) := by
    decide +kernel
  obtain ⟨σ, hfold, hret⟩ := Option.map_eq_some_iff.mp hmoves
  obtain ⟨h, hrun, hQ⟩ := Run.of_foldlM (System.Moves fun a _ ↦ a == 1)
    (Q := fun e ↦ Undisturbed (fun a _ ↦ a == 1) e.pre e.label)
    (fun σ m σ' hm ↦ by
      rw [Option.ite_none_right_eq_some] at hm
      exact ⟨hm.2, undisturbed_of_quiet hm.1⟩) hfold
  have hret' := System.result_eq_some hret
  exact ⟨h, σ, hrun, hret', permitted_of_undisturbed (by decide) hrun hQ 7 [65] hret'⟩

/-- Between the check and the lock of process 7's paste of what process 1 has copied, process 1
pastes that itself, and process 9 copies. -/
def sampleDisturbed : List Move :=
  sampleCall 1 (.copy (fun _ ↦ 65) 1) 4 8 ++ .finish 1 :: sampleCall 7 (.paste 99 1) 4 16
    ++ sampleCall 1 (.paste 99 1) 7 16 ++ sampleCall 9 (.copy (fun _ ↦ 66) 1) 4 16
    ++ List.replicate 3 (.sysCall 7 (sampleEnv 16))

/-- Process 7 is a child of process 1, and 9 is a stranger to both. Process 7 receives what process
9 has copied, and its paste returns `0`. -/
theorem not_permitted : ∃ h σ,
    Run (System.Moves fun a b ↦ a == 1 && b == 7) (System.initial 4096) h σ ∧
      σ.running 7 = some (.ret (.pasted 0 [66])) ∧ σ.received 7 = some (9, [66]) ∧
      ¬Permits (fun a b ↦ a == 1 && b == 7) 9 7 := by
  have hmoves : (sampleDisturbed.foldlM (System.move fun a b ↦ a == 1 && b == 7)
      (System.initial 4096)).map (fun σ ↦ (σ.result 7, σ.received 7))
        = some (some (Result.pasted 0 [66]), some (9, [66])) := by
    decide +kernel
  obtain ⟨σ, hfold, hret⟩ := Option.map_eq_some_iff.mp hmoves
  obtain ⟨h, hrun, -⟩ := Run.of_foldlM (System.Moves fun a b ↦ a == 1 && b == 7)
    (Q := fun _ ↦ True) (fun _ _ _ hm ↦ ⟨hm, trivial⟩) hfold
  exact ⟨h, σ, hrun, System.result_eq_some (congrArg Prod.fst hret), congrArg Prod.snd hret,
    by decide⟩

end MinixClipboard
