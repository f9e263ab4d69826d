import MinixClipboard.Driver.Locks

/-!
# The entry points

The device is called through `cdr_read` and `cdr_write` alone, and which request a call is, is told
by its size. This file reads the sizes back: every call is one request or none, so that everything
proved about requests holds of calls. What the entry points add is where a request names an id that
is not one.
-/

namespace MinixClipboard

/-- A call of one of the device's entry points, with what the kernel contributes to it. -/
inductive Call
  /-- `cdr_read`, for what its local message holds before and the result of `sys_safecopyto`. -/
  | read (size : UInt32) (msg : GetMsg) (copied : ℤ)
  /-- `cdr_write`, for the result of `sys_safecopyfrom` and what it leaves in the local message. -/
  | write (size : UInt32) (copied : ℤ) (msg : WriteMsg) (choice : Option Addr)

namespace Call

/-- The message of a call that sets. -/
def set? : Call → Option (SetMsg × Option Addr)
  | .read _ _ _ => none
  | .write size copied msg choice =>
    if size = setSize ∧ copied = ok then some (msg.set, choice) else none

def lock? : Call → Option LockMsg
  | .read _ _ _ => none
  | .write size copied msg _ => if size = lockSize ∧ copied = ok then some msg.lock else none

def query? : Call → Option UInt32
  | .read size _ _ => if isPidQuery size then some (decodeId size) else none
  | .write _ _ _ _ => none

/-- The pid of a call that gets, and the message it fills. -/
def get? : Call → Option (Int32 × GetMsg)
  | .read size msg _ =>
    if isPidQuery size = false ∧ 0 ≤ (decodePid size).toInt32 then
      some ((decodePid size).toInt32, msg)
    else none
  | .write _ _ _ _ => none

def id? (c : Call) : Option UInt32 := (c.lock?.map LockMsg.id).or c.query?

end Call

namespace Driver

open Fallible

/-- One call of the device, with what the client's buffer receives. -/
def call : Call → DriverM (ℤ × Option GetMsg)
  | .read size msg copied => clipboardRead size msg copied
  | .write size copied msg choice => do return (← clipboardWrite size copied msg choice, none)

def Calls (s : Driver) (l : Call × (ℤ × Option GetMsg)) (s' : Driver) : Prop :=
  call l.1 s = .ok (l.2, s')

variable {addr : Addr} {s s' : Driver} {c : Call}

/-! ## Reading the sizes back -/

/-- How a read ends whose get has this result. -/
def finishRead (copied : ℤ) (r : ℤ × GetMsg) : DriverM (ℤ × Option GetMsg) :=
  if r.1 = ok then
    if entryLenLimit < r.2.bufferLen.toNat then throw .frame
    else pure (if copied = ok then (ok, some r.2) else (copied, none))
  else pure (1, none)

theorem call_of_set? {msg : SetMsg} {choice : Option Addr} (h : c.set? = some (msg, choice)) :
    call c = do return (← doClipboardSet msg choice, none) := by
  cases c with
  | read => simp [Call.set?] at h
  | write size copied m ch =>
    simp only [Call.set?, Option.ite_none_right_eq_some, Option.some.injEq, Prod.mk.injEq] at h
    obtain ⟨⟨rfl, rfl⟩, rfl, rfl⟩ := h
    rfl

theorem call_of_lock? {msg : LockMsg} (h : c.lock? = some msg) :
    call c = do return (← doClipboardLock msg, none) := by
  cases c with
  | read => simp [Call.lock?] at h
  | write size copied m ch =>
    simp only [Call.lock?, Option.ite_none_right_eq_some, Option.some.injEq] at h
    obtain ⟨⟨rfl, rfl⟩, rfl⟩ := h
    rfl

theorem call_of_query? {size : UInt32} (h : c.query? = some size) :
    call c = do return (← pidQuery size, none) := by
  cases c with
  | read size' msg copied =>
    simp only [Call.query?, Option.ite_none_right_eq_some, Option.some.injEq] at h
    obtain ⟨hquery, rfl⟩ := h
    rw [call, clipboardRead, if_pos hquery]
    rfl
  | write => simp [Call.query?] at h

theorem clipboardRead_of_get? {size : UInt32} {msg msg' : GetMsg} {copied : ℤ} {pid : Int32}
    (h : (Call.read size msg' copied).get? = some (pid, msg)) :
    clipboardRead size msg' copied = doClipboardGet msg pid >>= finishRead copied := by
  simp only [Call.get?, Option.ite_none_right_eq_some, Option.some.injEq, Prod.mk.injEq] at h
  obtain ⟨⟨hquery, hpid⟩, rfl, rfl⟩ := h
  rw [clipboardRead, if_neg (by simp [hquery])]
  simp only []
  rw [if_neg (Int32.not_lt.mpr hpid)]
  congr 1
  funext ⟨res, out⟩
  rw [finishRead]
  by_cases hres : res = ok
  · by_cases hlen : entryLenLimit < out.bufferLen.toNat
    · simp [hres, hlen]
      rfl
    · simp [hres, hlen]
      split <;> rfl
  · simp [hres]

theorem call_of_get? {pid : Int32} {msg : GetMsg} (h : c.get? = some (pid, msg)) :
    ∃ copied, call c = doClipboardGet msg pid >>= finishRead copied := by
  cases c with
  | read size msg' copied => exact ⟨copied, clipboardRead_of_get? h⟩
  | write => simp [Call.get?] at h

theorem call_of_none (hset : c.set? = none) (hlock : c.lock? = none) (hquery : c.query? = none)
    (hget : c.get? = none) : ∃ ret, call c = pure (ret, none) := by
  cases c with
  | read size msg copied =>
    rw [Call.query?, ite_eq_right_iff] at hquery
    rw [Call.get?, ite_eq_right_iff] at hget
    have hfalse : isPidQuery size = false := by
      cases hq : isPidQuery size with
      | false => rfl
      | true => simpa using hquery hq
    have hneg : (decodePid size).toInt32 < 0 := by
      refine Int32.not_le.mp fun hle ↦ ?_
      simpa using hget ⟨hfalse, hle⟩
    refine ⟨-1, ?_⟩
    rw [call, clipboardRead, if_neg (by simp [hfalse])]
    simp only []
    rw [if_pos hneg]
  | write size copied msg choice =>
    rw [Call.set?, ite_eq_right_iff] at hset
    rw [Call.lock?, ite_eq_right_iff] at hlock
    rw [call, clipboardWrite, if_pos (by decide)]
    simp only []
    by_cases hsize : size = lockSize ∨ size = setSize
    · have hcopied : copied ≠ ok := by
        rintro rfl
        rcases hsize with rfl | rfl
        · simpa using hlock ⟨rfl, rfl⟩
        · simpa using hset ⟨rfl, rfl⟩
      refine ⟨copied, ?_⟩
      rw [if_pos (by simpa using hsize), if_pos hcopied]
      rfl
    · refine ⟨-1, ?_⟩
      rw [if_neg (by simpa using hsize)]
      rfl

/-! ## Calls are requests -/

theorem finishRead_state {copied : ℤ} {p : ℤ × GetMsg} {r : ℤ × Option GetMsg}
    (h : finishRead copied p s = .ok (r, s')) : s' = s := by
  rw [finishRead] at h
  split at h
  · split at h
    · simp [throw_apply] at h
    · rw [pure_apply, Except.ok.injEq, Prod.mk.injEq] at h
      exact h.2.symm
  · rw [pure_apply, Except.ok.injEq, Prod.mk.injEq] at h
    exact h.2.symm

/-- A call changes the driver as some request does, or not at all. -/
theorem Calls.serves {r : ℤ × Option GetMsg} (h : Calls s (c, r) s') :
    s' = s ∨ ∃ l, Serves s l s' ∧
      ∀ msg choice, l.1 = .set msg choice → c.set? = some (msg, choice) := by
  rw [Calls] at h
  cases hset : c.set? with
  | some p =>
    rw [call_of_set? hset, bind_pure_ok_iff] at h
    obtain ⟨ret, hok, -⟩ := h
    refine Or.inr ⟨(.set p.1 p.2, ⟨ret, none⟩), serves_set_iff.mpr ⟨ret, hok, rfl⟩, ?_⟩
    rintro msg choice ⟨rfl, rfl⟩
    rfl
  | none =>
  cases hlock : c.lock? with
  | some msg =>
    rw [call_of_lock? hlock, bind_pure_ok_iff] at h
    obtain ⟨ret, hok, -⟩ := h
    exact Or.inr ⟨(.lock msg, ⟨ret, none⟩), serves_lock_iff.mpr ⟨ret, hok, rfl⟩, by simp⟩
  | none =>
  cases hquery : c.query? with
  | some size =>
    rw [call_of_query? hquery, bind_pure_ok_iff] at h
    obtain ⟨ret, hok, -⟩ := h
    exact Or.inl (pidQuery_state hok)
  | none =>
  cases hget : c.get? with
  | some p =>
    obtain ⟨copied, hcall⟩ := call_of_get? hget
    rw [hcall, bind_apply] at h
    cases hok : doClipboardGet p.2 p.1 s with
    | error e => simp [hok] at h
    | ok q =>
      rw [hok] at h
      obtain rfl := finishRead_state h
      exact Or.inr ⟨(.get p.1 p.2, ⟨q.1.1, some q.1.2⟩), serves_get_iff.mpr ⟨_, hok, rfl⟩, by simp⟩
  | none =>
    obtain ⟨ret, hcall⟩ := call_of_none hset hlock hquery hget
    rw [hcall, pure_apply, Except.ok.injEq, Prod.mk.injEq] at h
    exact Or.inl h.2.symm

theorem reachable_of_calls (hs : Reachable Calls (initial addr) s) :
    Reachable Serves (initial addr) s := by
  refine hs.invariant (P := Reachable Serves (initial addr)) .refl fun s l s' hs hcalls ↦ ?_
  rcases hcalls.serves with rfl | ⟨l', hserves, -⟩
  · exact hs
  · exact hs.next hserves

theorem inv_of_calls (ha : Stack.Fits addr) (hs : Reachable Calls (initial addr) s) : Inv s :=
  inv_of_reachable ha (reachable_of_calls hs)

/-! ## Ids that are none -/

/-- What a call may do with ids: it makes no access outside the table, and one that names an id
outside the table is refused. -/
structure SafeIndices (s : Driver) (c : Call) : Prop where
  inside : ∀ i, call c s ≠ .error (.index i)
  refused : ∀ id, c.id? = some id → bufMaxCount ≤ id.toNat → call c s = .ok ((-1, none), s)

theorem call_query_of_le {size : UInt32} (h : c.query? = some size)
    (hid : bufMaxCount ≤ size.toNat) : call c s = .ok ((-1, none), s) := by
  rw [call_of_query? h, bind_ok (pidQuery_of_le hid)]
  rfl

theorem call_lock_of_le {msg : LockMsg} (h : c.lock? = some msg)
    (hid : bufMaxCount ≤ msg.id.toNat) : call c s = .error (.index (asInt msg.id)) := by
  rw [call_of_lock? h, bind_apply, doClipboardLock_of_le msg hid]

/-- Apart from a lock, no call makes an access outside the table. -/
theorem Inv.call_ne_index (hI : Inv s) (hlocks : ∀ msg, c.lock? = some msg →
    msg.id.toNat < bufMaxCount) (i : ℤ) : call c s ≠ .error (.index i) := by
  cases hset : c.set? with
  | some p =>
    rw [call_of_set? hset, bind_apply]
    rcases doClipboardSet_spec hI p.1 p.2 with ⟨-, h⟩ | ⟨k, -, -, ⟨a, t, h, -⟩ | ⟨-, -, h⟩⟩ <;>
      rw [h] <;> simp [pure_apply]
  | none =>
  cases hlock : c.lock? with
  | some msg =>
    rw [call_of_lock? hlock, bind_apply, doClipboardLock_eq msg (hlocks msg hlock), ← apply_ite]
    simp [pure_apply]
  | none =>
  cases hquery : c.query? with
  | some size =>
    rw [call_of_query? hquery, bind_apply]
    by_cases hid : size.toNat < bufMaxCount
    · rw [pidQuery_of_lt hid]
      simp [pure_apply]
    · rw [pidQuery_of_le (Nat.not_lt.mp hid)]
      simp [pure_apply]
  | none =>
  cases hget : c.get? with
  | some p =>
    obtain ⟨copied, hcall⟩ := call_of_get? hget
    rw [hcall, bind_apply]
    rcases doClipboardGet_spec hI p.1 p.2 with ⟨-, h⟩ | ⟨k, t, -, h, -⟩ <;> rw [h] <;>
      simp only [finishRead] <;> split <;> (try split) <;> simp [pure_apply, throw_apply]
  | none =>
    obtain ⟨ret, hcall⟩ := call_of_none hset hlock hquery hget
    simp [hcall, pure_apply]

/-- **Ids.** In every state the device can be brought to, a call is safe exactly when it is no lock
of an id outside the table. -/
theorem safeIndices_iff (ha : Stack.Fits addr) (hs : Reachable Calls (initial addr) s) (c : Call) :
    SafeIndices s c ↔ ∀ msg, c.lock? = some msg → msg.id.toNat < bufMaxCount := by
  have hI := inv_of_calls ha hs
  refine ⟨fun hsafe msg hlock ↦ ?_, fun hlocks ↦ ⟨hI.call_ne_index hlocks, fun id hid hle ↦ ?_⟩⟩
  · by_contra hid
    exact hsafe.inside _ (call_lock_of_le hlock (Nat.not_lt.mp hid))
  · cases hlock : c.lock? with
    | some msg =>
      obtain rfl : msg.id = id := by simpa [Call.id?, hlock] using hid
      exact absurd (hlocks msg hlock) (Nat.not_lt.mpr hle)
    | none => exact call_query_of_le (by simpa [Call.id?, hlock] using hid) hle

/-- A process asks to lock entry 100. -/
def badLock : Call := .write lockSize ok ((⟨7, 100, 0⟩ : LockMsg).toWrite fun _ ↦ 0) none

theorem safeIndices_iff_badLock : SafeIndices (initial 4096) badLock ↔
    ∀ msg, badLock.lock? = some msg → msg.id.toNat < bufMaxCount :=
  safeIndices_iff (show Stack.Fits 4096 by decide) .refl badLock

/-- The lock of entry 100 is not refused: a freshly started device looks at the slot. -/
theorem not_safeIndices_badLock : Reachable Calls (initial 4096) (initial 4096) ∧
    badLock.id? = some 100 ∧ call badLock (initial 4096) = .error (.index 100) ∧
    ¬SafeIndices (initial 4096) badLock := by
  have hlock : badLock.lock? = some ⟨7, 100, 0⟩ := rfl
  have hfault : call badLock (initial 4096) = .error (.index 100) :=
    call_lock_of_le hlock (by decide)
  exact ⟨.refl, rfl, hfault, fun hsafe ↦ hsafe.inside 100 hfault⟩

end Driver

end MinixClipboard
