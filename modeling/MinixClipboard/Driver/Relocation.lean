import MinixClipboard.Driver.Ownership

/-!
# Live updates cannot be told from outside

A live update that finds memory, with the table where it was, moves the buffers of the entries and
changes nothing else. Whatever is asked for afterwards is answered as if it had not taken place:
every life of a service without a crash gives the answers of a driver that is never updated
(`answers_of_run`).

The two drivers are kept `Alike`. Their entries are the same but for where their bytes lie, and
their stacks hold the same ids. What the allocator returns to the one need not be free in the other,
so the simulation chooses addresses of its own; that there always is one, `Owned` says.
-/

namespace MinixClipboard

namespace Driver

open Fallible

variable {s s' t t' : Driver} {i : Fin bufMaxCount}

/-! ## Drivers that are alike -/

/-- Two drivers that differ in where the bytes of their entries lie. -/
structure Alike (s t : Driver) : Prop where
  entry : ∀ i, t.entries i = { s.entries i with buffer := (t.entries i).buffer }
  bytes : ∀ i, (LockTable.value t.table i).map Payload.bytes
    = (LockTable.value s.table i).map Payload.bytes
  free : ∃ ids, FreeIds s ids ∧ FreeIds t ids

theorem Alike.inUse (h : Alike s t) (i : Fin bufMaxCount) :
    (t.entries i).inUse = (s.entries i).inUse := by rw [h.entry]

theorem Alike.lock? (h : Alike s t) (p : Int32) : t.lock? p = s.lock? p := by
  have hlocked : t.lockedBy p = s.lockedBy p := by
    funext i
    rw [Driver.lockedBy, Driver.lockedBy, h.entry i]
  rw [Driver.lock?, Driver.lock?, hlocked]

theorem value_of_ne (hi : (s.entries i).inUse ≠ .empty) :
    LockTable.value s.table i = some (payload s.heap (s.entries i)) := by
  rw [LockTable.value, table, slotOf]
  cases huse : (s.entries i).inUse with
  | empty => exact absurd huse hi
  | used => rfl
  | locked => rfl

theorem Alike.contents (h : Alike s t) (hi : (s.entries i).inUse ≠ .empty) :
    t.heap.contents (t.entries i).buffer = s.heap.contents (s.entries i).buffer := by
  have hbytes := h.bytes i
  rw [value_of_ne hi, value_of_ne (by rwa [h.inUse])] at hbytes
  exact Option.some_inj.mp hbytes

theorem Alike.bytes_update (h : Alike s t) {a a' : Option (Slot Int32 Payload)}
    (hs : s'.table = Function.update s.table i a) (ht : t'.table = Function.update t.table i a')
    (ha : (a'.map Slot.value).map Payload.bytes = (a.map Slot.value).map Payload.bytes)
    (j : Fin bufMaxCount) : (LockTable.value t'.table j).map Payload.bytes
      = (LockTable.value s'.table j).map Payload.bytes := by
  rw [hs, ht, LockTable.value_update, LockTable.value_update]
  by_cases hji : j = i
  · rw [hji, Function.update_self, Function.update_self, ha]
  · rw [Function.update_of_ne hji, Function.update_of_ne hji, h.bytes j]

theorem Alike.entry_update (h : Alike s t) {f : Entry → Entry}
    (hf : ∀ e a, f { e with buffer := a } = { f e with buffer := a })
    (hs : s'.entries i = f (s.entries i)) (hs' : ∀ j, j ≠ i → s'.entries j = s.entries j)
    (ht : t'.entries i = f (t.entries i)) (ht' : ∀ j, j ≠ i → t'.entries j = t.entries j)
    (j : Fin bufMaxCount) :
    t'.entries j = { s'.entries j with buffer := (t'.entries j).buffer } := by
  by_cases hji : j = i
  · subst hji
    rw [hs, ht, h.entry j, hf]
  · rw [hs' j hji, ht' j hji]
    exact h.entry j

/-! ## Requests -/

theorem value_bytes_of_sameButLocks (h : SameButLocks s s') (i : Fin bufMaxCount) :
    (LockTable.value s'.table i).map Payload.bytes
      = (LockTable.value s.table i).map Payload.bytes := by
  by_cases hi : (s.entries i).inUse = .empty
  · rw [LockTable.value, LockTable.value, table_eq_none_iff.mpr hi,
      table_eq_none_iff.mpr ((h.empty_iff i).mpr hi)]
  · rw [value_of_ne hi, value_of_ne ((h.empty_iff i).not.mpr hi), h.payload, h.heap]

theorem Alike.of_sameButLocks (h : Alike s t) (hs : SameButLocks s s') (ht : SameButLocks t t')
    (hentry : ∀ j, t'.entries j = { s'.entries j with buffer := (t'.entries j).buffer }) :
    Alike s' t' where
  entry := hentry
  bytes i := by
    rw [value_bytes_of_sameButLocks hs, value_bytes_of_sameButLocks ht, h.bytes i]
  free := by
    obtain ⟨ids, hids, hids'⟩ := h.free
    exact ⟨ids, hids.of_inUse hs.addr hs.availableEntries hs.empty_iff,
      hids'.of_inUse ht.addr ht.availableEntries ht.empty_iff⟩

theorem Alike.unlocked (h : Alike s t) (p : Int32) : Alike (s.unlocked p) (t.unlocked p) := by
  refine h.of_sameButLocks (sameButLocks_unlocked s p) (sameButLocks_unlocked t p) fun j ↦ ?_
  rw [Driver.unlocked, Driver.unlocked, h.lock? p]
  cases s.lock? p with
  | none => exact h.entry j
  | some k =>
    exact h.entry_update (f := fun e ↦ { e with inUse := .used }) (fun _ _ ↦ rfl)
      (update_entries_self _) (fun _ hne ↦ update_entries_of_ne hne _)
      (update_entries_self _) (fun _ hne ↦ update_entries_of_ne hne _) j

theorem Alike.lockedAt (h : Alike s t) (hi : (s.entries i).inUse ≠ .empty) (p : Int32) :
    Alike (s.lockedAt i p) (t.lockedAt i p) := by
  have hi' : (t.entries i).inUse ≠ .empty := by rwa [h.inUse]
  refine h.of_sameButLocks (sameButLocks_lockedAt hi) (sameButLocks_lockedAt hi') ?_
  exact h.entry_update (f := fun e ↦ { e with inUse := .locked, lockingPid := p }) (fun _ _ ↦ rfl)
    (update_entries_self _) (fun _ hne ↦ update_entries_of_ne hne _)
    (update_entries_self _) (fun _ hne ↦ update_entries_of_ne hne _)

/-- A request and its answer, wherever the allocator has put the bytes of a set. -/
inductive SameAnswer : Request × Reply → Request × Reply → Prop
  | set (msg : SetMsg) (choice choice' : Option Addr) (reply : Reply) :
      SameAnswer (.set msg choice, reply) (.set msg choice', reply)
  | same (l : Request × Reply) : SameAnswer l l

/-- Two drivers that are alike take a set alike, if the second is given an address that is free. -/
theorem Alike.set (h : Alike s t) (hI : Inv s) (hI' : Inv t) {msg : SetMsg}
    {choice choice' : Option Addr} (hfresh : t.heap.Succeeds choice') {r : ℤ}
    (hset : doClipboardSet msg choice s = .ok (r, s')) :
    ∃ t', doClipboardSet msg choice' t = .ok (r, t') ∧ Alike s' t' := by
  obtain ⟨ids, hids, hids'⟩ := h.free
  rcases List.eq_nil_or_concat' ids with rfl | ⟨ids, i, rfl⟩
  · rw [hids.doClipboardSet_nil msg choice] at hset
    obtain ⟨rfl, rfl⟩ := of_pure_ok hset
    exact ⟨t, hids'.doClipboardSet_nil msg choice', h⟩
  -- the same id is on top of both stacks
  obtain ⟨rfl, hfree, -⟩ := hids.of_set hset
  have hempty : (s.entries i).inUse = .empty := (hids.mem_iff i).mp (by simp)
  have hempty' : (t.entries i).inUse = .empty := (hids'.mem_iff i).mp (by simp)
  rcases doClipboardSet_spec hI msg choice with ⟨hfull, -⟩ | ⟨k, -, -, ⟨a, u, hok, hacc, -⟩ | hbad⟩
  · exact absurd hempty (hfull i)
  swap
  · simp [hbad.2.2] at hset
  rcases doClipboardSet_spec hI' msg choice' with
    ⟨hfull, -⟩ | ⟨k', -, -, ⟨a', t', hok', hacc', -⟩ | hbad⟩
  · exact absurd hempty' (hfull i)
  swap
  · exact absurd hfresh hbad.1
  obtain ⟨hk, rfl⟩ : ((k : ℕ) : ℤ) = (i : ℕ) ∧ u = s' := by simpa [hok] using hset
  obtain ⟨hk', hfree', -⟩ := hids'.of_set hok'
  obtain rfl : k = i := Fin.ext (by omega)
  obtain rfl : k' = k := Fin.ext (by omega)
  refine ⟨t', hok', fun j ↦ ?_, h.bytes_update hacc.table hacc'.table rfl, ids, hfree, hfree'⟩
  by_cases hji : j = k'
  · rw [hji, hacc.entry, hacc'.entry, setEntry, setEntry, h.entry k']
  · rw [hacc.entries j hji, hacc'.entries j hji]
    exact h.entry j

theorem Alike.lock (h : Alike s t) {msg : LockMsg} {r : ℤ}
    (hlock : doClipboardLock msg s = .ok (r, s')) :
    ∃ t', doClipboardLock msg t = .ok (r, t') ∧ Alike s' t' := by
  by_cases hid : msg.id.toNat < bufMaxCount
  · have hun := h.unlocked msg.pid.toInt32
    rw [doClipboardLock_eq msg hid] at hlock ⊢
    rw [hun.entry]
    split at hlock
    · rename_i hcond
      obtain ⟨rfl, rfl⟩ := of_pure_ok hlock
      rw [if_pos hcond]
      exact ⟨_, rfl, hun.lockedAt (by simp [hcond.1]) _⟩
    · rename_i hcond
      obtain ⟨rfl, rfl⟩ := of_pure_ok hlock
      rw [if_neg hcond]
      exact ⟨_, rfl, hun⟩
  · rw [doClipboardLock_of_le msg (Nat.not_lt.mp hid)] at hlock
    simp at hlock

theorem Alike.get (h : Alike s t) (hI : Inv s) (hI' : Inv t) {pid : Int32} {msg : GetMsg}
    {r : ℤ × GetMsg} (hget : doClipboardGet msg pid s = .ok (r, s')) :
    ∃ t', doClipboardGet msg pid t = .ok (r, t') ∧ Alike s' t' := by
  rcases doClipboardGet_spec hI pid msg with ⟨hnone, hok⟩ | ⟨i, u, hsome, hok, hdel⟩
  · obtain ⟨rfl, rfl⟩ := of_pure_ok (hok.symm.trans hget)
    exact ⟨t, doClipboardGet_of_none (by rw [h.lock?, hnone]) msg, h⟩
  rcases doClipboardGet_spec hI' pid msg with ⟨hnone, -⟩ | ⟨k, t', hsome', hok', hdel'⟩
  · rw [h.lock?, hsome] at hnone
    simp at hnone
  obtain rfl : i = k := by
    rw [h.lock?, hsome] at hsome'
    exact Option.some_inj.mp hsome'
  obtain ⟨rfl, rfl⟩ := of_pure_ok (hok.symm.trans hget)
  have huse : (s.entries i).inUse ≠ .empty := by simp [(of_lock?_eq_some hsome).2]
  obtain ⟨ids, hids, hids'⟩ := h.free
  refine ⟨t', ?_, h.entry_update (f := fun e ↦ { e with inUse := .empty }) (fun _ _ ↦ rfl)
    hdel.entry hdel.entries hdel'.entry hdel'.entries, h.bytes_update hdel.table hdel'.table rfl,
    _, hdel.free ids hids, hdel'.free ids hids'⟩
  rw [hok', h.contents huse, filled, filled, h.entry i]

theorem Alike.query (h : Alike s t) {size : UInt32} {r : ℤ}
    (hquery : pidQuery size s = .ok (r, s')) : s' = s ∧ pidQuery size t = .ok (r, t) := by
  refine ⟨eq_of_query hquery, ?_⟩
  by_cases hid : size.toNat < bufMaxCount
  · rw [pidQuery_of_lt hid] at hquery ⊢
    obtain ⟨rfl, -⟩ := of_pure_ok hquery
    rw [h.entry]
  · rw [pidQuery_of_le (Nat.not_lt.mp hid)] at hquery ⊢
    obtain ⟨rfl, -⟩ := of_pure_ok hquery
    rfl

/-- **One request** is answered alike, and leaves the two alike. -/
theorem Alike.serves (h : Alike s t) (hI : Inv s) (hI' : Inv t) (hO : Owned t)
    {l : Request × Reply} (hs : Serves s l s') :
    ∃ l' t', Serves t l' t' ∧ SameAnswer l l' ∧ Alike s' t' := by
  obtain ⟨req, reply⟩ := l
  cases req with
  | set msg choice =>
    obtain ⟨r, hset, hr⟩ := serves_set_iff.mp hs
    obtain ⟨a, ha⟩ := hO.exists_fresh
    obtain ⟨t', hset', halike⟩ :=
      h.set hI hI' (show t.heap.Succeeds (some a) from ⟨a, rfl, ha⟩) hset
    exact ⟨_, t', serves_set_iff.mpr ⟨r, hset', hr⟩, .set msg choice (some a) reply, halike⟩
  | lock msg =>
    obtain ⟨r, hlock, hr⟩ := serves_lock_iff.mp hs
    obtain ⟨t', hlock', halike⟩ := h.lock hlock
    exact ⟨_, t', serves_lock_iff.mpr ⟨r, hlock', hr⟩, .same _, halike⟩
  | get pid msg =>
    obtain ⟨r, hget, hr⟩ := serves_get_iff.mp hs
    obtain ⟨t', hget', halike⟩ := h.get hI hI' hget
    exact ⟨_, t', serves_get_iff.mpr ⟨r, hget', hr⟩, .same _, halike⟩
  | query size =>
    obtain ⟨r, hquery, hr⟩ := serves_query_iff.mp hs
    obtain ⟨rfl, hquery'⟩ := h.query hquery
    exact ⟨_, t, serves_query_iff.mpr ⟨r, hquery', hr⟩, .same _, h⟩

/-! ## Live updates -/

/-- An event that is no crash and, if it is a live update, finds memory and leaves the table where
it is. -/
def Smooth (e : Event Service LifeEvent) : Prop :=
  match e.label with
  | .request _ _ => True
  | .liveUpdate p choice =>
    p.addr = e.pre.driver.addr ∧ Allocates e.pre.driver (fun _ ↦ none) choice
  | .crash _ => False

theorem updated_of_lives {p : Place} {choice : ℕ → Option Addr} {v v' : Service} (hI : Inv v.driver)
    (hl : Lives v (.liveUpdate p choice) v')
    (hA : Allocates v.driver (fun _ ↦ none) choice) :
    Updated v.driver (load₀ p.addr) v.store v'.driver v'.store := by
  cases hl with
  | @liveUpdate s s₁ s' d d₁ d' _ _ r r' hsave hinit =>
    obtain ⟨s₂, d₂, hsave', hsaved⟩ := sefCbLuStateSave_spec hI d
    obtain ⟨⟨-, rfl⟩, -⟩ : (ok = r ∧ d₂ = d₁) ∧ s₂ = s₁ := by
      simpa using hsave'.symm.trans hsave
    obtain ⟨s₃, d₃, hrestore, hupd⟩ :=
      luStateRestore_spec (t := load₀ p.addr) hI hsaved rfl hA
    have hinit' : sefCbInit choice .lu d₂ (load₀ p.addr) = .ok ((ok, d₃), s₃) := by
      rw [sefCbInit, StoreM.bind_ok hrestore]
      rfl
    obtain ⟨⟨-, rfl⟩, rfl⟩ : (ok = r' ∧ d₃ = d') ∧ s₃ = s' := by
      simpa using hinit'.symm.trans hinit
    exact hupd

/-- **A live update** is not seen. -/
theorem Alike.updated (h : Alike s t) {u : Driver} {d d' : DataStore} (hu : Updated s u d s' d')
    (haddr : u.addr = s.addr) : Alike s' t := by
  have hinUse : ∀ i, (s'.entries i).inUse = (s.entries i).inUse := fun i ↦ by rw [hu.entry i]
  refine ⟨fun j ↦ by rw [h.entry j, hu.entry j], fun i ↦ ?_, ?_⟩
  · rw [h.bytes i]
    by_cases hi : (s.entries i).inUse = .empty
    · rw [LockTable.value, LockTable.value, table_eq_none_iff.mpr hi,
        table_eq_none_iff.mpr ((hinUse i).trans hi)]
    · have hbytes : s'.heap.contents (s'.entries i).buffer
          = s.heap.contents (s.entries i).buffer := by
        rw [Heap.contents, (hu.bytes i hi).1, Option.getD_some]
      rw [value_of_ne hi, value_of_ne (by rwa [hinUse]), Option.map_some, Option.map_some]
      exact congrArg some hbytes.symm
  · obtain ⟨ids, hids, hids'⟩ := h.free
    exact ⟨ids, hids.of_inUse (hu.addr.trans haddr) hu.availableEntries
      fun i ↦ by rw [hinUse i], hids'⟩

/-! ## Lives -/

/-- The answer an event gives, if it is a request. -/
def LifeEvent.answer? : LifeEvent → Option (Request × Reply)
  | .request req reply => some (req, reply)
  | .liveUpdate _ _ => none
  | .crash _ => none

/-- The requests of a history, with their answers. -/
def answers (h : List (Event Service LifeEvent)) : List (Request × Reply) :=
  h.filterMap fun e ↦ e.label.answer?

/-- A service, and a driver that has been asked for the same and never been updated. -/
structure Mirrors (v : Service) (t : Driver) : Prop where
  inv : Inv v.driver
  inv' : Inv t
  owned : Owned t
  alike : Alike v.driver t

theorem mirrors_started (p : Place) (d : DataStore) : Mirrors (started p d) (initial p.addr) where
  inv := inv_initial p.fits
  inv' := inv_initial p.fits
  owned := owned_of_heap_eq rfl
  alike := ⟨fun _ ↦ rfl, fun _ ↦ rfl, _, freeIds_initial p.fits, freeIds_initial p.fits⟩

/-- One event in the life of a service is one request to its mirror image, or none. -/
theorem Mirrors.step {e : Event Service LifeEvent} (h : Mirrors e.pre t) (hsmooth : Smooth e)
    (hl : Lives e.pre e.label e.post) :
    e.label.answer? = none ∧ Mirrors e.post t ∨
      ∃ l m t', e.label.answer? = some l ∧ Serves t m t' ∧ SameAnswer l m ∧
        Mirrors e.post t' := by
  obtain ⟨v, l, v'⟩ := e
  cases l with
  | request req reply =>
    cases hl with
    | request hs =>
      obtain ⟨m, t', hs', hsame, halike⟩ := h.alike.serves h.inv h.inv' h.owned hs
      exact Or.inr ⟨_, m, t', rfl, hs', hsame, (serves_refines (e := ⟨_, _, _⟩) h.inv hs).1,
        (serves_refines (e := ⟨_, _, _⟩) h.inv' hs').1, h.owned.of_serves hs', halike⟩
  | liveUpdate p choice =>
    obtain ⟨haddr, hA⟩ : p.addr = v.driver.addr ∧ Allocates v.driver (fun _ ↦ none) choice :=
      hsmooth
    have hupd := updated_of_lives h.inv hl hA
    exact Or.inl ⟨rfl, hupd.inv h.inv haddr, h.inv', h.owned, h.alike.updated hupd haddr⟩
  | crash p => exact hsmooth.elim

theorem mirrors_of_run {p : Place} {d : DataStore} {h : List (Event Service LifeEvent)}
    {v : Service} (hrun : Run Lives (started p d) h v) (hsmooth : ∀ e ∈ h, Smooth e) :
    ∃ h' t, Run Serves (initial p.addr) h' t ∧
      List.Forall₂ (fun l e ↦ SameAnswer l e.label) (answers h) h' ∧ Mirrors v t :=
  Run.simulate_visible (fun e : Event Service LifeEvent ↦ e.label.answer?) (R := Mirrors)
    (mirrors_started p d) (fun _ _ hR hQ hl ↦ hR.step hQ hl) hrun hsmooth

/-- **Live updates are not seen.** A service that has been updated any number of times in between
its requests, with its table in place and with enough memory, gives the answers of a driver that
was never updated; and it comes to stand as that driver does, but for the addresses of its bytes. -/
theorem answers_of_run {p : Place} {d : DataStore} {h : List (Event Service LifeEvent)}
    {v : Service} (hrun : Run Lives (started p d) h v) (hsmooth : ∀ e ∈ h, Smooth e) :
    ∃ h' t, Run Serves (initial p.addr) h' t ∧
      List.Forall₂ (fun l e ↦ SameAnswer l e.label) (answers h) h' ∧ Alike v.driver t := by
  obtain ⟨h', t, hrun', hall, hmirrors⟩ := mirrors_of_run hrun hsmooth
  exact ⟨h', t, hrun', hall, hmirrors.alike⟩

def sampleChoice (i : ℕ) : Option Addr := some (UInt32.ofNat (i + 1))

theorem allocates_sampleChoice (s : Driver) : Allocates s (fun _ ↦ none) sampleChoice := by
  have hword : ∀ i : Fin bufMaxCount, (UInt32.ofNat (i + 1)).toNat = i + 1 := fun i ↦ by
    have hi : (i : ℕ) < 100 := i.isLt
    exact UInt32.toNat_ofNat_of_lt' (by simp only [UInt32.size]; omega)
  refine ⟨fun i _ ↦ ⟨_, rfl, fun h₀ ↦ ?_, rfl⟩, fun i j _ _ heq ↦ ?_⟩
  · have habs := (hword i).symm.trans (congrArg UInt32.toNat h₀)
    simp at habs
  · have hnat := congrArg UInt32.toNat (Option.some_inj.mp heq)
    rw [hword, hword] at hnat
    exact Fin.ext (by omega)

theorem exists_lives_liveUpdate {v : Service} (hI : Inv v.driver) (p : Place)
    {choice : ℕ → Option Addr} (hA : Allocates v.driver (fun _ ↦ none) choice) :
    ∃ v', Lives v (.liveUpdate p choice) v' := by
  obtain ⟨s₁, d₁, hsave, hsaved⟩ := sefCbLuStateSave_spec hI v.store
  obtain ⟨s', d', hrestore, -⟩ := luStateRestore_spec (t := load₀ p.addr) hI hsaved rfl hA
  have hinit : sefCbInit choice .lu d₁ (load₀ p.addr) = .ok ((ok, d'), s') := by
    rw [sefCbInit, StoreM.bind_ok hrestore]
    rfl
  exact ⟨⟨s', d'⟩, .liveUpdate hsave hinit⟩

theorem exists_run_updated : ∃ h v, Run Lives (started samplePlace fun _ ↦ none) h v ∧
    h.map Event.label = [.request sampleSet ⟨99, none⟩, .liveUpdate samplePlace sampleChoice] ∧
    ∀ e ∈ h, Smooth e := by
  have hset : Lives (started samplePlace fun _ ↦ none) (.request sampleSet ⟨99, none⟩)
      sampleStored := .request serves_sampleSet
  have hI : Inv sampleStored.driver :=
    inv_of_reachable (show Stack.Fits 4096 by decide) (Reachable.refl.next serves_sampleSet)
  obtain ⟨v, hlu⟩ := exists_lives_liveUpdate hI samplePlace (allocates_sampleChoice _)
  refine ⟨_, v, (Run.nil.snoc hset).snoc hlu, rfl, fun e he ↦ ?_⟩
  rcases List.mem_pair.mp he with rfl | rfl
  · trivial
  · exact ⟨rfl, allocates_sampleChoice _⟩

theorem answers_of_run_sample : ∃ h v, Run Lives (started samplePlace fun _ ↦ none) h v ∧
    answers h = [(sampleSet, ⟨99, none⟩)] ∧ ∃ h' t, Run Serves (initial 4096) h' t ∧
      List.Forall₂ (fun l e ↦ SameAnswer l e.label) (answers h) h' ∧ Alike v.driver t := by
  obtain ⟨h, v, hrun, hlabels, hsmooth⟩ := exists_run_updated
  have hanswers : answers h = (h.map Event.label).filterMap LifeEvent.answer? := by
    rw [answers, List.filterMap_map]
    rfl
  rw [hlabels] at hanswers
  exact ⟨h, v, hrun, hanswers, answers_of_run hrun hsmooth⟩

/-! ## Capacity -/

def accepted : Request × Reply → Bool
  | (.set _ _, r) => 0 ≤ r.ret
  | _ => false

def delivered : Request × Reply → Bool
  | (.get _ _, r) => r.ret == ok
  | _ => false

theorem SameAnswer.accepted_eq {l m : Request × Reply} (h : SameAnswer l m) :
    accepted l = accepted m := by
  cases h <;> rfl

theorem SameAnswer.delivered_eq {l m : Request × Reply} (h : SameAnswer l m) :
    delivered l = delivered m := by
  cases h <;> rfl

theorem Alike.occupied (h : Alike s t) : t.occupied = s.occupied := by
  ext i
  simp [Driver.occupied, h.inUse]

/-- Sets minus gets, over any number of updates. -/
theorem countP_accepted_of_run {p : Place} {d : DataStore} {h : List (Event Service LifeEvent)}
    {v : Service} (hrun : Run Lives (started p d) h v) (hsmooth : ∀ e ∈ h, Smooth e) :
    Inv v.driver ∧
      (answers h).countP accepted = (answers h).countP delivered + v.driver.occupied.card := by
  obtain ⟨h', t, hrun', hall, hmirrors⟩ := mirrors_of_run hrun hsmooth
  obtain ⟨-, h'', hrun'', hall'⟩ := run_refines p.fits hrun'
  refine ⟨hmirrors.inv, ?_⟩
  calc (answers h).countP accepted
      = h''.countP (·.label.isPut) :=
        (hall.countP_eq (q := isSet) fun _ _ hm ↦ hm.accepted_eq).trans
          (hall'.countP_eq fun _ _ hm ↦ Means.isSet_eq hm.label)
    _ = h''.countP (·.label.isTake) + (LockTable.live t.table).card :=
        LockTable.countP_isPut_of_run hrun''
    _ = (answers h).countP delivered + v.driver.occupied.card := by
        rw [live_table, hmirrors.alike.occupied, hall.countP_eq (q := isGet)
          fun _ _ hm ↦ hm.delivered_eq, hall'.countP_eq fun _ _ hm ↦ Means.isGet_eq hm.label]

/-- A set that is answered is refused exactly by a full driver. -/
theorem ret_eq_neg_one_iff (hI : Inv s) {msg : SetMsg} {choice : Option Addr} {reply : Reply}
    (hs : Serves s (.set msg choice, reply) s') :
    reply.ret = -1 ↔ s.occupied.card = bufMaxCount := by
  have hfull := card_occupied_lt_iff s
  have hle : s.occupied.card ≤ bufMaxCount := by
    simpa using Finset.card_le_univ s.occupied
  obtain ⟨r, hset, rfl⟩ := serves_set_iff.mp hs
  rcases doClipboardSet_spec hI msg choice with ⟨hall, hok⟩ | ⟨i, hi, -, ⟨a, u, hok, -⟩ | hbad⟩
  · obtain ⟨rfl, -⟩ := of_pure_ok (hok.symm.trans hset)
    refine iff_of_true rfl ?_
    by_contra hne
    obtain ⟨i, hi⟩ := hfull.mp (lt_of_le_of_ne hle hne)
    exact hall i hi
  · obtain ⟨rfl, -⟩ : ((i : ℕ) : ℤ) = r ∧ u = s' := by simpa [hok] using hset
    exact iff_of_false (show ¬((i : ℕ) : ℤ) = -1 by omega) (hfull.mpr ⟨i, hi⟩).ne
  · simp [hbad.2.2] at hset

/-- **Capacity.** Over any number of updates, a set is refused exactly if a hundred more sets have
been accepted before it than gets have delivered: no slot is lost, and none is handed out twice. -/
theorem refused_iff_of_run {p : Place} {d : DataStore} {h : List (Event Service LifeEvent)}
    {v : Service} (hrun : Run Lives (started p d) h v) (hsmooth : ∀ e ∈ h, Smooth e) {j : ℕ}
    {e : Event Service LifeEvent} (hj : h[j]? = some e) {msg : SetMsg} {choice : Option Addr}
    {reply : Reply} (hl : e.label = .request (.set msg choice) reply) :
    reply.ret = -1 ↔ (answers (h.take j)).countP accepted
      = (answers (h.take j)).countP delivered + bufMaxCount := by
  obtain ⟨hpre, hstep⟩ := hrun.event hj
  obtain ⟨hI, hcount⟩ :=
    countP_accepted_of_run hpre fun f hf ↦ hsmooth f (List.mem_of_mem_take hf)
  obtain ⟨⟨s, d'⟩, l, v'⟩ := e
  obtain rfl : l = _ := hl
  cases hstep with
  | request hs =>
    rw [ret_eq_neg_one_iff hI hs, hcount, Nat.add_left_cancel_iff]

/-- The first set is not refused: nothing has been accepted before it. -/
theorem refused_iff_of_run_sample : ∃ h v, Run Lives (started samplePlace fun _ ↦ none) h v ∧
    ∃ e reply, h[0]? = some e ∧ e.label = .request sampleSet reply ∧
      (reply.ret = -1 ↔ (answers (h.take 0)).countP accepted
        = (answers (h.take 0)).countP delivered + bufMaxCount) := by
  obtain ⟨h, v, hrun, hlabels, hsmooth⟩ := exists_run_updated
  obtain ⟨e, he, hl⟩ : ∃ e, h[0]? = some e ∧ e.label = .request sampleSet ⟨99, none⟩ := by
    rw [← Option.map_eq_some_iff, ← List.getElem?_map, hlabels]
    rfl
  exact ⟨h, v, hrun, e, _, he, hl, refused_iff_of_run hrun hsmooth he hl⟩

end Driver

end MinixClipboard
