import MinixClipboard.Driver.Calls

/-!
# Lengths

The length of an entry is chosen by the sender of a set and used for a copy in a get of somebody
else. Nothing in the driver compares it with the size of a message, and nothing looks at what
`malloc` returned. `Respects` is what the message format asks of a driver and its next call, and
`respects_iff` says which runs meet it: those whose every set, where it finds a free slot, fits the
message and gets a block. On such runs the stored lengths are bounded in every state, so that no get
can run over its reply.
-/

namespace MinixClipboard

namespace Driver

open Fallible

variable {addr : Addr} {s s' : Driver} {c : Call} {i : Fin bufMaxCount}

/-- The stored lengths fit a message, and the buffers are there. -/
def Bounded (s : Driver) : Prop :=
  ∀ i, (s.entries i).inUse ≠ .empty → (s.entries i).buffer ≠ 0 ∧
    (s.heap (s.entries i).buffer).isSome ∧ (s.entries i).bufferLen.toNat ≤ entryLenLimit

/-- Whether a set can be carried out: there is a free slot, its bytes fit a message, and there is
memory for them. -/
def CanSet (s : Driver) (msg : SetMsg) (choice : Option Addr) : Prop :=
  (∃ i, (s.entries i).inUse = .empty) ∧ msg.bufferLen.toNat ≤ entryLenLimit ∧
    s.heap.Succeeds choice

/-- What the message format asks of a state and the next call. -/
structure Respects (s : Driver) (c : Call) : Prop where
  bounded : Bounded s
  /-- Nothing is copied into a failed allocation, and no copy runs over a local message. -/
  faultless : call c s ≠ .error .pointer ∧ call c s ≠ .error .frame
  /-- A set depends on the bytes of its message alone, not on those that lie behind it. -/
  set_bytes : ∀ msg choice, c.set? = some (msg, choice) → ∀ buffer : Memory,
    (∀ k < entryLenLimit, buffer k = msg.buffer k) →
      doClipboardSet { msg with buffer := buffer } choice s = doClipboardSet msg choice s
  /-- A get leaves the memory behind its reply as it is. -/
  get_bytes : ∀ pid msg, c.get? = some (pid, msg) → ∀ ret out s',
    doClipboardGet msg pid s = .ok ((ret, out), s') →
      ∀ k, entryLenLimit ≤ k → out.buffer k = msg.buffer k
  /-- A set that cannot be carried out is refused. -/
  refused : ∀ msg choice, c.set? = some (msg, choice) → ¬CanSet s msg choice →
    doClipboardSet msg choice s = .ok (-1, s)

/-- The sets the driver is prepared for: where a slot is free, the bytes fit a message and there is
memory for them. -/
def Prepared (s : Driver) (c : Call) : Prop :=
  ∀ msg choice, c.set? = some (msg, choice) → (∃ i, (s.entries i).inUse = .empty) →
    msg.bufferLen.toNat ≤ entryLenLimit ∧ s.heap.Succeeds choice

/-! ## One call -/

theorem prepared_of_respects (hI : Inv s) (h : Respects s c) : Prepared s c := by
  intro msg choice hset hfree
  by_contra hnot
  have hrefused := h.refused msg choice hset fun hcan ↦ hnot hcan.2
  obtain ⟨k, hk⟩ := hfree
  rcases doClipboardSet_spec hI msg choice with
    ⟨hfull, -⟩ | ⟨i, -, -, ⟨a, t, hok, -⟩ | ⟨-, -, hbad⟩⟩
  · exact hfull k hk
  · rw [hok, Except.ok.injEq, Prod.mk.injEq] at hrefused
    have hneg := hrefused.1
    omega
  · simp [hbad] at hrefused

theorem setBytes_congr {msg : SetMsg} (hlen : msg.bufferLen.toNat ≤ entryLenLimit) {buffer : Memory}
    (h : ∀ k < entryLenLimit, buffer k = msg.buffer k) :
    setBytes { msg with buffer := buffer } = setBytes msg :=
  Memory.bytes_congr fun k hk ↦ h k (hk.trans_le hlen)

/-- A set looks at its buffer through the bytes it stores, and only where it finds a free slot. -/
theorem doClipboardSet_congr (hI : Inv s) {msg msg' : SetMsg} (choice : Option Addr)
    (hpid : msg'.pid = msg.pid) (hlen : msg'.bufferLen = msg.bufferLen)
    (hdec : msg'.decompressedLen = msg.decompressedLen)
    (hbytes : (∃ i, (s.entries i).inUse = .empty) → setBytes msg' = setBytes msg) :
    doClipboardSet msg' choice s = doClipboardSet msg choice s := by
  obtain ⟨ids, hids⟩ := hI.free
  rcases List.eq_nil_or_concat' ids with rfl | ⟨ids, i, rfl⟩
  · rw [hids.doClipboardSet_nil, hids.doClipboardSet_nil]
  · have hsame := hbytes ⟨i, (hids.mem_iff i).mp (by simp)⟩
    rw [hids.doClipboardSet_append, hids.doClipboardSet_append, doClipboardRealSet,
      doClipboardRealSet, hpid, hlen, hdec]
    rw [setBytes, setBytes, hlen] at hsame
    rw [hsame]

/-- Where the lengths are bounded and stay so, only a lock of no slot does not return. -/
theorem call_returns_or (hI : Inv s) (hb : Bounded s) (h : Prepared s c) :
    (∃ r s', call c s = .ok (r, s')) ∨
      ∃ msg, c.lock? = some msg ∧ bufMaxCount ≤ msg.id.toNat ∧
        call c s = .error (.index (asInt msg.id)) := by
  cases hset : c.set? with
  | some p =>
    rw [call_of_set? hset]
    rcases doClipboardSet_spec hI p.1 p.2 with ⟨-, hok⟩ | ⟨k, hk, -, ⟨a, t, hok, -⟩ | ⟨hfail, -⟩⟩
    · exact Or.inl ⟨_, _, bind_ok hok _⟩
    · exact Or.inl ⟨_, _, bind_ok hok _⟩
    · exact absurd (h p.1 p.2 hset ⟨k, hk⟩).2 hfail
  | none =>
  cases hlock : c.lock? with
  | some msg =>
    rcases Nat.lt_or_ge msg.id.toNat bufMaxCount with hid | hid
    · rw [call_of_lock? hlock, bind_apply, doClipboardLock_eq msg hid, ← apply_ite]
      exact Or.inl ⟨_, _, rfl⟩
    · exact Or.inr ⟨msg, rfl, hid, call_lock_of_le hlock hid⟩
  | none =>
  cases hquery : c.query? with
  | some size =>
    rw [call_of_query? hquery]
    rcases Nat.lt_or_ge size.toNat bufMaxCount with hid | hid
    · exact Or.inl ⟨_, _, bind_ok (pidQuery_of_lt hid) _⟩
    · exact Or.inl ⟨_, _, bind_ok (pidQuery_of_le hid) _⟩
  | none =>
  cases hget : c.get? with
  | some p =>
    obtain ⟨copied, hcall⟩ := call_of_get? hget
    rw [hcall]
    refine Or.inl ?_
    rcases doClipboardGet_spec hI p.1 p.2 with ⟨-, hok⟩ | ⟨k, t, hlock?, hok, -⟩
    · exact ⟨_, _, bind_ok hok _⟩
    · have huse : (s.entries k).inUse ≠ .empty := by simp [(of_lock?_eq_some hlock?).2]
      have hlen : ¬entryLenLimit < (s.entries k).bufferLen.toNat := Nat.not_lt.mpr (hb k huse).2.2
      rw [bind_ok hok, finishRead, if_pos rfl, filled, if_neg hlen]
      exact ⟨_, _, rfl⟩
  | none =>
    obtain ⟨ret, hcall⟩ := call_of_none hset hlock hquery hget
    rw [hcall]
    exact Or.inl ⟨_, _, rfl⟩

theorem call_faultless (hI : Inv s) (hb : Bounded s) (h : Prepared s c) :
    call c s ≠ .error .pointer ∧ call c s ≠ .error .frame := by
  rcases call_returns_or hI hb h with ⟨r, s', hok⟩ | ⟨msg, -, -, hbad⟩
  · simp [hok]
  · simp [hbad]

theorem respects_of_prepared (hI : Inv s) (hb : Bounded s) (h : Prepared s c) : Respects s c := by
  refine ⟨hb, call_faultless hI hb h, fun msg choice hset buffer hbuf ↦ ?_,
    fun pid msg _ ret out s' hget k hk ↦ ?_, fun msg choice hset hnot ↦ ?_⟩
  · exact doClipboardSet_congr hI choice rfl rfl rfl fun hfree ↦
      setBytes_congr (h msg choice hset hfree).1 hbuf
  · rcases doClipboardGet_spec hI pid msg with ⟨-, hok⟩ | ⟨i, t, hlock, hok, -⟩
    · obtain ⟨⟨-, rfl⟩, -⟩ : (-1 = ret ∧ msg = out) ∧ s = s' := by simpa [hok] using hget
      rfl
    · obtain ⟨⟨-, rfl⟩, -⟩ : (ok = ret ∧ filled msg _ _ = out) ∧ t = s' := by simpa [hok] using hget
      have huse : (s.entries i).inUse ≠ .empty := by simp [(of_lock?_eq_some hlock).2]
      refine Memory.write_of_le (Nat.le_trans ?_ hk)
      rw [hI.buffers.length i huse]
      exact (hb i huse).2.2
  · rcases doClipboardSet_spec hI msg choice with ⟨-, hok⟩ | ⟨i, hi, -⟩
    · exact hok
    · exact absurd ⟨⟨i, hi⟩, h msg choice hset ⟨i, hi⟩⟩ hnot

/-! ## Runs -/

theorem Inv.bounded (hI : Inv s) (h : ∀ i, (s.entries i).inUse ≠ .empty →
    (s.entries i).buffer ≠ 0 ∧ (s.entries i).bufferLen.toNat ≤ entryLenLimit) : Bounded s :=
  fun i hi ↦ ⟨(h i hi).1, hI.buffers.live i hi (h i hi).1, (h i hi).2⟩

/-- The step of the invariant: only a set can store a length. -/
theorem bounded_of_serves (hI : Inv s) (hb : Bounded s) {l : Request × Reply}
    (hset : ∀ msg choice, l.1 = .set msg choice → (∃ i, (s.entries i).inUse = .empty) →
      msg.bufferLen.toNat ≤ entryLenLimit ∧ s.heap.Succeeds choice) (hs : Serves s l s') :
    Bounded s' := by
  have hI' : Inv s' := (serves_refines (e := ⟨s, l, s'⟩) hI hs).1
  refine hI'.bounded fun j hj ↦ ?_
  rcases entry_of_serves hI hs j with ⟨pid, use, he, huse⟩ | ⟨msg, choice, a, hl, hfree, -, he, ha⟩
  · -- every other request leaves the buffer and its length, and fills no slot
    rw [he] at hj ⊢
    exact ⟨(hb j (huse hj)).1, (hb j (huse hj)).2.2⟩
  · obtain ⟨hlen, hsucc⟩ := hset msg choice hl ⟨j, hfree⟩
    rw [he]
    exact ⟨ha hsucc, hlen⟩

theorem bounded_of_calls (hI : Inv s) (hb : Bounded s) (hp : Prepared s c)
    {r : ℤ × Option GetMsg} (hcalls : Calls s (c, r) s') : Inv s' ∧ Bounded s' := by
  rcases hcalls.serves with rfl | ⟨l, hs, hset⟩
  · exact ⟨hI, hb⟩
  · refine ⟨(serves_refines (e := ⟨s, l, s'⟩) hI hs).1, bounded_of_serves hI hb ?_ hs⟩
    exact fun msg choice hl ↦ hp msg choice (hset msg choice hl)

section Runs

variable {h : List (Event Driver (Call × (ℤ × Option GetMsg)))}

theorem bounded_of_run (ha : Stack.Fits addr) (hrun : Run Calls (initial addr) h s)
    (hprep : ∀ e ∈ h, Prepared e.pre e.label.1) : Bounded s := by
  refine (hrun.invariant_of (P := fun s ↦ Inv s ∧ Bounded s) (Q := fun e ↦ Prepared e.pre e.label.1)
    ⟨inv_initial ha, fun i hi ↦ absurd rfl hi⟩ ?_ hprep).2
  exact fun e hpre hp hcalls ↦ bounded_of_calls hpre.1 hpre.2 hp hcalls

/-- The calls of a history and one more, with the states they are made in. The last one need not
return. -/
def attempts (h : List (Event Driver (Call × (ℤ × Option GetMsg)))) (s : Driver) (c : Call) :
    List (Driver × Call) :=
  h.map (fun e ↦ (e.pre, e.label.1)) ++ [(s, c)]

theorem run_of_mem_attempts (hrun : Run Calls (initial addr) h s) {q : Driver × Call}
    (hq : q ∈ attempts h s c) :
    ∃ h', Run Calls (initial addr) h' q.1 ∧ ∀ e ∈ h', (e.pre, e.label.1) ∈ attempts h s c := by
  rw [attempts, List.mem_append, List.mem_map, List.mem_singleton] at hq
  rcases hq with ⟨e, he, rfl⟩ | rfl
  · obtain ⟨j, hj⟩ := List.mem_iff_getElem?.mp he
    exact ⟨_, (hrun.event hj).1, fun f hf ↦
      List.mem_append_left _ (List.mem_map_of_mem (List.mem_of_mem_take hf))⟩
  · exact ⟨h, hrun, fun f hf ↦ List.mem_append_left _ (List.mem_map_of_mem hf)⟩

/-- **Lengths.** A run of the device, together with the call made in its last state, stays within
the message format exactly when the driver is prepared for every set it is asked for. -/
theorem respects_iff (ha : Stack.Fits addr) (hrun : Run Calls (initial addr) h s) (c : Call) :
    (∀ q ∈ attempts h s c, Respects q.1 q.2) ↔ ∀ q ∈ attempts h s c, Prepared q.1 q.2 := by
  refine ⟨fun hresp q hq ↦ ?_, fun hprep q hq ↦ ?_⟩
  · obtain ⟨h', hrun', -⟩ := run_of_mem_attempts hrun hq
    exact prepared_of_respects (inv_of_calls ha hrun'.reachable) (hresp q hq)
  · obtain ⟨h', hrun', hmem⟩ := run_of_mem_attempts hrun hq
    have hb := bounded_of_run ha hrun' fun e he ↦ hprep _ (hmem e he)
    exact respects_of_prepared (inv_of_calls ha hrun'.reachable) hb (hprep q hq)

end Runs

/-- A set of 1025 bytes. -/
def longSet : Call := .write setSize ok (⟨7, 1025, 1025, fun _ ↦ 97⟩ : SetMsg).toWrite (some 8)

theorem respects_iff_longSet :
    (∀ q ∈ attempts [] (initial 4096) longSet, Respects q.1 q.2) ↔
      ∀ q ∈ attempts [] (initial 4096) longSet, Prepared q.1 q.2 :=
  respects_iff (show Stack.Fits 4096 by decide) .nil longSet

/-- A set of 1025 bytes is carried out: it copies a byte from behind its message, and the entry it
leaves is longer than any reply. A set for which there is no memory copies to `NULL`. -/
theorem not_respects_longSet : Reachable Calls (initial 4096) (initial 4096) ∧
    (∃ (i : Fin bufMaxCount) (s' : Driver), Calls (initial 4096) (longSet, ((i : ℕ), none)) s' ∧
      (s'.entries i).inUse = .used ∧ (s'.entries i).bufferLen = 1025) ∧
    ¬Respects (initial 4096) longSet ∧
    call (.write setSize ok (⟨7, 1, 1, fun _ ↦ 97⟩ : SetMsg).toWrite none) (initial 4096)
      = .error .pointer := by
  have hI : Inv (initial 4096) := inv_initial (by decide)
  refine ⟨.refl, ?_, fun hresp ↦ ?_, rfl⟩
  · rcases doClipboardSet_spec hI ⟨7, 1025, 1025, fun _ ↦ 97⟩ (some 8) with
      ⟨hfull, -⟩ | ⟨i, -, -, ⟨a, s', hok, hacc, -⟩ | ⟨hfail, -⟩⟩
    · exact absurd rfl (hfull 0)
    · have hset : longSet.set? = some (⟨7, 1025, 1025, fun _ ↦ 97⟩, some 8) := rfl
      refine ⟨i, s', ?_, by rw [hacc.entry]; rfl, by rw [hacc.entry]; rfl⟩
      rw [Calls, call_of_set? hset, bind_ok hok]
      rfl
    · exact absurd ⟨8, rfl, by decide, rfl⟩ hfail
  · exact absurd (prepared_of_respects hI hresp _ _ rfl ⟨0, rfl⟩).1 (by decide)

end Driver

end MinixClipboard
