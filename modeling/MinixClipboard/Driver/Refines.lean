import MinixClipboard.Driver.Invariant

/-!
# The driver implements a table of locked slots

`Means` says which action of the table a served request is: a set that finds a slot is a put, a lock
is an acquire or, where it is refused, a release, a get that finds a lock is a take, and everything
else is idle. `serves_refines` is the step of the simulation, and with it every run of the driver is
a run of the table with the same number of events (`run_refines`). No law of the table has to be
proved of the driver again.
-/

namespace MinixClipboard

namespace Driver

open Fallible

/-! ## The start -/

theorem freeIds_initial {addr : Addr} (ha : Stack.Fits addr) :
    FreeIds (initial addr) (List.finRange bufMaxCount) := by
  refine ⟨?_, List.nodup_finRange _, fun i ↦ iff_of_true (List.mem_finRange i) rfl⟩
  have hwords : words (List.finRange bufMaxCount) = (List.range stackSize).map UInt32.ofNat := by
    rw [words, ← List.map_coe_finRange_eq_range, List.map_map]
    rfl
  rw [hwords]
  exact Stack.init_spec ha

/-- A freshly started driver satisfies the invariant, wherever its stack lies. -/
theorem inv_initial {addr : Addr} (ha : Stack.Fits addr) : Inv (initial addr) where
  fits := ha
  free := ⟨_, freeIds_initial ha⟩
  buffers := ⟨rfl, fun _ hi ↦ absurd rfl hi, fun _ hi ↦ absurd rfl hi, fun _ _ hi ↦ absurd rfl hi⟩
  exclusive _ _ _ _ _ hi := by simp [table, slotOf, initial, clipboardInit, load₀] at hi

theorem table_initial (addr : Addr) : (initial addr).table = LockTable.empty := rfl

/-! ## One request -/

section Serves

variable {s s' : Driver} {r : Reply}

theorem serves_set_iff {msg : SetMsg} {choice : Option Addr} :
    Serves s (.set msg choice, r) s' ↔
      ∃ ret, doClipboardSet msg choice s = .ok (ret, s') ∧ (⟨ret, none⟩ : Reply) = r :=
  bind_pure_ok_iff

theorem serves_lock_iff {msg : LockMsg} :
    Serves s (.lock msg, r) s' ↔
      ∃ ret, doClipboardLock msg s = .ok (ret, s') ∧ (⟨ret, none⟩ : Reply) = r :=
  bind_pure_ok_iff

theorem serves_get_iff {msg : GetMsg} {pid : Int32} :
    Serves s (.get pid msg, r) s' ↔
      ∃ p, doClipboardGet msg pid s = .ok (p, s') ∧ (⟨p.1, some p.2⟩ : Reply) = r :=
  bind_pure_ok_iff

theorem serves_query_iff {size : UInt32} :
    Serves s (.query size, r) s' ↔
      ∃ ret, pidQuery size s = .ok (ret, s') ∧ (⟨ret, none⟩ : Reply) = r :=
  bind_pure_ok_iff

/-- A query of an id is answered from its slot, in use or not. -/
theorem pidQuery_of_lt {size : UInt32} (hid : size.toNat < bufMaxCount) :
    pidQuery size s = .ok ((s.entries ⟨size.toNat, hid⟩).sourcePid.toInt, s) := by
  have hcorrect : isCorrectId size = true :=
    decide_eq_true (UInt32.lt_iff_toNat_lt.mpr (by rw [bufMaxCount_eq] at hid; exact hid))
  rw [pidQuery, decodeId, asInt_of_lt_count hid, hcorrect]
  exact bind_ok (entry_of_fin _ s) _

theorem pidQuery_of_le {size : UInt32} (hid : bufMaxCount ≤ size.toNat) :
    pidQuery size s = .ok (-1, s) := by
  have hcorrect : isCorrectId size = false := by
    rw [isCorrectId, decide_eq_false_iff_not, UInt32.lt_iff_toNat_lt]
    exact Nat.not_lt.mpr hid
  rw [pidQuery, hcorrect]
  rfl

theorem pidQuery_state {size : UInt32} {ret : ℤ} (h : pidQuery size s = .ok (ret, s')) :
    s' = s := by
  rcases Nat.lt_or_ge size.toNat bufMaxCount with hid | hid
  · rw [pidQuery_of_lt hid, Except.ok.injEq, Prod.mk.injEq] at h
    exact h.2.symm
  · rw [pidQuery_of_le hid, Except.ok.injEq, Prod.mk.injEq] at h
    exact h.2.symm

/-- **What a served request can do to an entry.** It locks it, releases it or empties it, or it is
the set that is given the entry. -/
theorem entry_of_serves (hI : Inv s) {l : Request × Reply} (h : Serves s l s')
    (j : Fin bufMaxCount) :
    (∃ pid use, s'.entries j = { s.entries j with lockingPid := pid, inUse := use } ∧
      (use ≠ .empty → (s.entries j).inUse ≠ .empty)) ∨
    ∃ msg choice a, l.1 = .set msg choice ∧ (s.entries j).inUse = .empty ∧
      s.availableEntries.top s.addr = .ok (UInt32.ofNat j) ∧
      s'.entries j = setEntry (s.entries j) msg a ∧ (s.heap.Succeeds choice → a ≠ 0) := by
  have hsame : s'.entries j = s.entries j →
      ∃ pid use, s'.entries j = { s.entries j with lockingPid := pid, inUse := use } ∧
        (use ≠ .empty → (s.entries j).inUse ≠ .empty) :=
    fun he ↦ ⟨(s.entries j).lockingPid, (s.entries j).inUse, he, id⟩
  obtain ⟨req, r⟩ := l
  cases req with
  | set msg choice =>
    obtain ⟨ret, hset, -⟩ := serves_set_iff.mp h
    rcases doClipboardSet_spec hI msg choice with
      ⟨-, hfull⟩ | ⟨i, huse, htop, ⟨a, t, hok, hacc, ha⟩ | hbad⟩
    · obtain ⟨-, rfl⟩ : -1 = ret ∧ s = s' := by simpa [hfull] using hset
      exact Or.inl (hsame rfl)
    · obtain ⟨-, rfl⟩ : ((i : ℕ) : ℤ) = ret ∧ t = s' := by simpa [hok] using hset
      by_cases hji : j = i
      · subst hji
        exact Or.inr ⟨msg, choice, a, rfl, huse, htop, hacc.entry, ha⟩
      · exact Or.inl (hsame (hacc.entries j hji))
    · simp [hbad.2.2] at hset
  | lock msg =>
    obtain ⟨ret, hlock, -⟩ := serves_lock_iff.mp h
    obtain ⟨hlocks, -⟩ := doClipboardLock_refines hI hlock
    refine Or.inl ⟨(s'.entries j).lockingPid, (s'.entries j).inUse, ?_, (hlocks.empty_iff j).not.mp⟩
    exact entry_ext (hlocks.payload s.heap j) rfl rfl
  | get pid msg =>
    obtain ⟨x, hget, -⟩ := serves_get_iff.mp h
    rcases doClipboardGet_spec hI pid msg with ⟨-, hnone⟩ | ⟨i, t, -, hok, hdel⟩
    · obtain ⟨-, rfl⟩ : (-1, msg) = x ∧ s = s' := by simpa [hnone] using hget
      exact Or.inl (hsame rfl)
    · obtain ⟨-, rfl⟩ : (ok, filled msg _ _) = x ∧ t = s' := by simpa [hok] using hget
      by_cases hji : j = i
      · subst hji
        exact Or.inl ⟨_, .empty, hdel.entry, fun h ↦ absurd rfl h⟩
      · exact Or.inl (hsame (hdel.entries j hji))
  | query size =>
    obtain ⟨ret, hquery, -⟩ := serves_query_iff.mp h
    exact Or.inl (hsame (by rw [pidQuery_state hquery]))

end Serves

/-! ## The simulation -/

/-- The message a get leaves, for what its slot stores. -/
def deliver (msg : GetMsg) (v : Payload) : GetMsg where
  bufferLen := v.bufferLen
  decompressedLen := v.decompressedLen
  buffer := msg.buffer.write v.bytes

/-- The action of the table that a served request is. -/
inductive Means :
    Event Driver (Request × Reply) → LockTable.Action (Fin bufMaxCount) Int32 Payload → Prop
  /-- A set that finds a free slot stores its message. -/
  | put {s s' : Driver} {msg : SetMsg} {choice : Option Addr} (i : Fin bufMaxCount) (a : Addr) :
      Means ⟨s, (.set msg choice, ⟨(i : ℕ), none⟩), s'⟩ (.put i (setPayload msg a))
  /-- A set of a full driver does nothing. -/
  | full {s s' : Driver} {msg : SetMsg} {choice : Option Addr} :
      Means ⟨s, (.set msg choice, ⟨-1, none⟩), s'⟩ .idle
  /-- A granted lock. -/
  | acquire {s s' : Driver} {msg : LockMsg} (i : Fin bufMaxCount) : msg.id.toNat = i →
      Means ⟨s, (.lock msg, ⟨ok, none⟩), s'⟩ (.acquire msg.pid.toInt32 i)
  /-- A refused lock still gives up the one held before. -/
  | release {s s' : Driver} {msg : LockMsg} :
      Means ⟨s, (.lock msg, ⟨-1, none⟩), s'⟩ (.release msg.pid.toInt32)
  /-- A get that finds a lock takes the slot's contents away. -/
  | take {s s' : Driver} {pid : Int32} {msg : GetMsg} (i : Fin bufMaxCount) (v : Payload) :
      s.table i = some ⟨v, some pid⟩ →
        Means ⟨s, (.get pid msg, ⟨ok, some (deliver msg v)⟩), s'⟩ (.take pid i)
  /-- A get that finds no lock does nothing. -/
  | lockless {s s' : Driver} {pid : Int32} {msg : GetMsg} :
      Means ⟨s, (.get pid msg, ⟨-1, some msg⟩), s'⟩ .idle
  /-- A query. -/
  | query {s s' : Driver} {size : UInt32} {ret : ℤ} :
      Means ⟨s, (.query size, ⟨ret, none⟩), s'⟩ .idle

/-- **One served request is one step of the table**, and the invariant is kept. -/
theorem serves_refines {e : Event Driver (Request × Reply)} (hI : Inv e.pre)
    (hserves : Serves e.pre e.label e.post) :
    Inv e.post ∧ ∃ a, Means e a ∧ LockTable.Step e.pre.table a e.post.table := by
  obtain ⟨s, ⟨req, r⟩, s'⟩ := e
  cases req with
  | set msg choice =>
    obtain ⟨ret, hset, rfl⟩ := serves_set_iff.mp hserves
    rcases doClipboardSet_spec hI msg choice with ⟨-, hfull⟩ | ⟨i, huse, -, hcase⟩
    · obtain ⟨rfl, rfl⟩ : -1 = ret ∧ s = s' := by simpa [hfull] using hset
      exact ⟨hI, _, .full, .idle _⟩
    · rcases hcase with ⟨a, t, hok, hacc, -⟩ | ⟨-, -, hfault⟩
      · obtain ⟨rfl, rfl⟩ : ((i : ℕ) : ℤ) = ret ∧ t = s' := by simpa [hok] using hset
        refine ⟨hacc.inv, _, .put i a, ?_⟩
        rw [hacc.table]
        exact .put _ (table_eq_none_iff.mpr huse)
      · simp [hfault] at hset
  | lock msg =>
    obtain ⟨ret, hlock, rfl⟩ := serves_lock_iff.mp hserves
    obtain ⟨hsame, hcase⟩ := doClipboardLock_refines hI hlock
    suffices ∃ a, Means ⟨s, (.lock msg, ⟨ret, none⟩), s'⟩ a ∧
        LockTable.Step s.table a s'.table by
      obtain ⟨a, hmeans, hs⟩ := this
      exact ⟨hI.of_sameButLocks hsame (hs.exclusive hI.exclusive), a, hmeans, hs⟩
    rcases hcase with ⟨rfl, htable⟩ | ⟨i, v, rfl, hid, -, hfree, htable⟩
    · rw [htable]
      exact ⟨_, .release, .release _ _⟩
    · rw [htable]
      exact ⟨_, .acquire i hid, .acquire hfree⟩
  | get pid msg =>
    obtain ⟨⟨ret, out⟩, hget, rfl⟩ := serves_get_iff.mp hserves
    rcases doClipboardGet_spec hI pid msg with ⟨-, hnone⟩ | ⟨i, t, hlock, hok, hdel⟩
    · obtain ⟨⟨rfl, rfl⟩, rfl⟩ : (-1 = ret ∧ msg = out) ∧ s = s' := by simpa [hnone] using hget
      exact ⟨hI, _, .lockless, .idle _⟩
    · obtain ⟨⟨rfl, rfl⟩, rfl⟩ : (ok = ret ∧ filled msg _ _ = out) ∧ t = s' := by
        simpa [hok] using hget
      have hi := table_of_lock?_eq_some hlock
      refine ⟨hdel.inv, _, .take i _ hi, ?_⟩
      rw [hdel.table]
      exact .take hi
  | query size =>
    obtain ⟨ret, hquery, rfl⟩ := serves_query_iff.mp hserves
    obtain rfl : s' = s := pidQuery_state hquery
    exact ⟨hI, _, .query, .idle _⟩

/-! ## Runs -/

section Runs

variable {addr : Addr} {s : Driver} {h : List (Event Driver (Request × Reply))}

/-- **Every run of the driver is a run of the table**, event by event. -/
theorem run_refines (ha : Stack.Fits addr) (hrun : Run Serves (initial addr) h s) :
    Inv s ∧ ∃ h', Run LockTable.Step LockTable.empty h' s.table ∧
      List.Forall₂ (Event.Matches table Means) h h' :=
  hrun.simulate table (inv_initial ha) fun _ hI hserves ↦ serves_refines hI hserves

theorem inv_of_reachable (ha : Stack.Fits addr) (hs : Reachable Serves (initial addr) s) :
    Inv s := by
  obtain ⟨_, hrun⟩ := hs
  exact (run_refines ha hrun).1

end Runs

end Driver

end MinixClipboard
