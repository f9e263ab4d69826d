import MinixClipboard.Driver.FreeSlots
import MinixClipboard.Driver.LiveUpdate

/-!
# Life-cycle events

`sef_cb_init` is called when an instance of the driver starts: the first one (`SEF_INIT_FRESH`), one
that replaces an older version (`SEF_INIT_LU`), and one that replaces an instance that has crashed
(`SEF_INIT_RESTART`). Between two starts the instance serves requests. The stack of free ids ends
with a pointer into itself, and so each of the three has to leave it pointing into the instance that
runs from now on.

Only the first does. A live update copies the pointer with everything else, which is right where
both instances have their table at one address, and a restart does nothing at all. `freeSlots_iff`
says that these are the only two ways in which a run can leave the stack out of order.

No assumption is made on the allocator here, so a live update may leave entries without a buffer,
and the invariant is less than that of `Driver.Invariant`: nothing is said about buffers.
-/

namespace MinixClipboard

namespace Driver

open Fallible

variable {s s' : Driver} {i : Fin bufMaxCount} {ids : List (Fin bufMaxCount)}

/-! ## What a request that returns leaves of the free ids -/

/-- The stack of free ids is in order, and lies where a stack may lie. -/
structure InOrder (s : Driver) : Prop where
  fits : Stack.Fits s.addr
  aligned : 4 ∣ s.addr.toNat
  free : ∃ ids, FreeIds s ids

theorem InOrder.freeSlots (h : InOrder s) : FreeSlots s := by
  obtain ⟨ids, hids⟩ := h.free
  exact hids.freeSlots h.fits

/-- Nothing has happened to the stack of free ids, to the slots it is about, or to their owners. -/
structure SameIds (s s' : Driver) : Prop where
  addr : s'.addr = s.addr
  availableEntries : s'.availableEntries = s.availableEntries
  empty_iff : ∀ i, (s'.entries i).inUse = .empty ↔ (s.entries i).inUse = .empty
  sourcePid : ∀ i, (s'.entries i).sourcePid = (s.entries i).sourcePid

theorem InOrder.of_sameIds (h : InOrder s) (hsame : SameIds s s') : InOrder s' where
  fits := by rw [hsame.addr]; exact h.fits
  aligned := by rw [hsame.addr]; exact h.aligned
  free := h.free.imp fun _ hids ↦
    hids.of_inUse hsame.addr hsame.availableEntries hsame.empty_iff

theorem SameIds.refl (s : Driver) : SameIds s s := ⟨rfl, rfl, fun _ ↦ Iff.rfl, fun _ ↦ rfl⟩

theorem SameIds.trans {s'' : Driver} (h : SameIds s s') (h' : SameIds s' s'') : SameIds s s'' where
  addr := h'.addr.trans h.addr
  availableEntries := h'.availableEntries.trans h.availableEntries
  empty_iff i := (h'.empty_iff i).trans (h.empty_iff i)
  sourcePid i := (h'.sourcePid i).trans (h.sourcePid i)

theorem SameButLocks.sameIds (h : SameButLocks s s') : SameIds s s' :=
  ⟨h.addr, h.availableEntries, h.empty_iff, fun i ↦ congrArg Payload.sourcePid (h.payload s.heap i)⟩

theorem InOrder.of_set (h : InOrder s) {msg : SetMsg} {choice : Option Addr} {r : ℤ}
    (hset : doClipboardSet msg choice s = .ok (r, s')) : InOrder s' := by
  obtain ⟨ids, hids⟩ := h.free
  rcases List.eq_nil_or_concat' ids with rfl | ⟨ids, i, rfl⟩
  · rw [hids.doClipboardSet_nil msg choice] at hset
    obtain ⟨-, rfl⟩ := of_pure_ok hset
    exact h
  · obtain ⟨-, hids', haddr⟩ := hids.of_set hset
    exact ⟨by rw [haddr]; exact h.fits, by rw [haddr]; exact h.aligned, ids, hids'⟩

theorem sameIds_of_lock {msg : LockMsg} {r : ℤ} (hlock : doClipboardLock msg s = .ok (r, s')) :
    SameIds s s' := by
  by_cases hid : msg.id.toNat < bufMaxCount
  · have hsame := (sameButLocks_unlocked s msg.pid.toInt32).sameIds
    rw [doClipboardLock_eq msg hid] at hlock
    split at hlock
    · rename_i hcond
      obtain ⟨-, rfl⟩ := of_pure_ok hlock
      exact hsame.trans (sameButLocks_lockedAt (by simp [hcond.1])).sameIds
    · obtain ⟨-, rfl⟩ := of_pure_ok hlock
      exact hsame
  · rw [doClipboardLock_of_le msg (Nat.not_lt.mp hid)] at hlock
    simp at hlock

theorem InOrder.of_get (h : InOrder s) {pid : Int32} {msg : GetMsg} {r : ℤ × GetMsg}
    (hget : doClipboardGet msg pid s = .ok (r, s')) : InOrder s' := by
  cases hlock : s.lock? pid with
  | none =>
    rw [doClipboardGet_of_none hlock] at hget
    obtain ⟨-, rfl⟩ := of_pure_ok hget
    exact h
  | some i =>
    have huse : (s.entries i).inUse ≠ .empty := by simp [(of_lock?_eq_some hlock).2]
    obtain ⟨ids, hids⟩ := h.free
    obtain ⟨stack, hpush, hholds⟩ :=
      Stack.push_spec h.fits hids.holds (hids.length_lt huse) (UInt32.ofNat i)
    by_cases hfault : s.heap.load (s.entries i).buffer (s.entries i).bufferLen.toNat = none ∨
        s.heap.free (s.entries i).buffer = none
    · rw [doClipboardGet_of_fault hlock msg hpush hfault] at hget
      simp at hget
    · rw [not_or, ← ne_eq, ← ne_eq, Option.ne_none_iff_exists',
        Option.ne_none_iff_exists'] at hfault
      obtain ⟨⟨bytes, hload⟩, heap, hfree⟩ := hfault
      rw [doClipboardGet_of_some hlock msg hload hpush hfree] at hget
      obtain ⟨-, rfl⟩ := of_pure_ok hget
      refine ⟨h.fits, h.aligned, ids ++ [i], hids.emptied huse ?_ heap⟩
      rw [words_append]
      exact hholds

theorem eq_of_query {size : UInt32} {r : ℤ} (hquery : pidQuery size s = .ok (r, s')) : s' = s := by
  by_cases hid : size.toNat < bufMaxCount
  · rw [pidQuery_of_lt hid] at hquery
    exact (of_pure_ok hquery).2.symm
  · rw [pidQuery_of_le (Nat.not_lt.mp hid)] at hquery
    exact (of_pure_ok hquery).2.symm

theorem InOrder.of_serves (h : InOrder s) {l : Request × Reply} (hs : Serves s l s') :
    InOrder s' := by
  obtain ⟨req, reply⟩ := l
  cases req with
  | set msg choice =>
    obtain ⟨r, hset, -⟩ := bind_pure_ok_iff.mp hs
    exact h.of_set hset
  | lock msg =>
    obtain ⟨r, hlock, -⟩ := bind_pure_ok_iff.mp hs
    exact h.of_sameIds (sameIds_of_lock hlock)
  | get pid msg =>
    obtain ⟨r, hget, -⟩ := bind_pure_ok_iff.mp hs
    exact h.of_get hget
  | query size =>
    obtain ⟨r, hquery, -⟩ := bind_pure_ok_iff.mp hs
    rw [eq_of_query hquery]
    exact h

/-! ## What a live update leaves of the free ids -/

section Update

variable {d d' : DataStore} {choice : ℕ → Option Addr} {k n : ℕ}

theorem StoreM.of_bind_ok {α β : Type} {x : StoreM α} {f : α → StoreM β} {b : β}
    (h : (x >>= f) d s = .ok ((b, d'), s')) :
    ∃ a e t, x d s = .ok ((a, e), t) ∧ f a e t = .ok ((b, d'), s') := by
  obtain ⟨p, t, hx, hf⟩ := Fallible.of_bind_ok (x := x d) (f := fun p ↦ f p.1 p.2) h
  exact ⟨p.1, p.2, t, hx, hf⟩

theorem StoreM.of_lift_ok {α : Type} {x : DriverM α} {a : α}
    (h : (liftM x : StoreM α) d s = .ok ((a, d'), s')) : d' = d := by
  obtain ⟨b, -, hb⟩ := (bind_pure_ok_iff (x := x) (f := fun b ↦ (b, d))).mp h
  exact (Prod.mk.inj hb).2.symm

theorem clipboard_of_saveFrom (hk : k + n = bufMaxCount)
    (h : saveFrom n k d s = .ok (((), d'), s')) : d' "clipboard" = d "clipboard" := by
  induction n generalizing k d s with
  | zero =>
    obtain ⟨hd, -⟩ := of_pure_ok h
    rw [← (Prod.mk.inj hd).2]
  | succ n ih =>
    have hk' : k + 1 + n = bufMaxCount := by omega
    obtain ⟨i, rfl⟩ : ∃ i : Fin bufMaxCount, (i : ℕ) = k := ⟨⟨k, by omega⟩, rfl⟩
    by_cases huse : (s.entries i).inUse = .empty
    · rw [saveFrom_of_empty huse] at h
      exact ih hk' h
    · rw [saveFrom_of_ne huse] at h
      obtain ⟨_, e, t, hfree, h⟩ := StoreM.of_bind_ok h
      rw [ih hk' h, StoreM.of_lift_ok hfree, published_of_ne (bufName_ne_clipboard i).symm]

theorem sameIds_moved (i : Fin bufMaxCount) (a : Addr) (heap : CHeap) :
    SameIds s ((s.update i fun e ↦ { e with buffer := a }).withHeap heap) := by
  refine ⟨rfl, rfl, fun j ↦ ?_, fun j ↦ ?_⟩ <;> by_cases hji : j = i
  · rw [hji, withHeap_entries, update_entries_self]
  · rw [withHeap_entries, update_entries_of_ne hji]
  · rw [hji, withHeap_entries, update_entries_self]
  · rw [withHeap_entries, update_entries_of_ne hji]

/-- **The loop of a restore** returns whatever `malloc` does, and changes no more of the table than
where buffers lie. -/
theorem sameIds_of_restoreFrom (hk : k + n = bufMaxCount)
    (h : restoreFrom choice n k d s = .ok (((), d'), s')) : SameIds s s' := by
  induction n generalizing k d s with
  | zero =>
    obtain ⟨-, rfl⟩ := of_pure_ok h
    exact .refl s
  | succ n ih =>
    have hk' : k + 1 + n = bufMaxCount := by omega
    obtain ⟨i, rfl⟩ : ∃ i : Fin bufMaxCount, (i : ℕ) = k := ⟨⟨k, by omega⟩, rfl⟩
    by_cases huse : (s.entries i).inUse = .empty
    · rw [restoreFrom_of_empty huse] at h
      exact ih hk' h
    · rw [restoreFrom, StoreM.bind_ok (StoreM.lift_ok (slot_of_fin i s)), if_pos huse,
        StoreM.bind_ok (StoreM.lift_ok (entry_of_fin i s)),
        StoreM.bind_ok (StoreM.lift_ok (malloc_eq _ _ s)),
        StoreM.bind_ok (StoreM.lift_ok (modifyEntry_of_fin i _ _)),
        StoreM.bind_ok (StoreM.lift_ok (entry_of_fin i _)),
        StoreM.bind_ok (dsRetrieveMem_apply _ _)] at h
      -- whether a buffer is found or not, only the address in the entry changes
      generalize d (bufName i) = x at h
      cases x with
      | none =>
        simp only [Option.map_none] at h
        rw [StoreM.bind_ok (dsDeleteMem_apply _)] at h
        exact (sameIds_moved i _ _).trans (ih hk' h)
      | some bytes =>
        simp only [Option.map_some] at h
        rw [StoreM.bind_ok (StoreM.lift_ok (entry_of_fin i _)),
          StoreM.bind_ok (StoreM.lift_ok (dsCopyTo_apply _ _ _)),
          StoreM.bind_ok (dsDeleteMem_apply _)] at h
        exact (sameIds_moved i _ _).trans (ih hk' h)

/-- A restore that finds the table of `s` puts its ids in their place, at its own address. -/
structure Takes (s t s' : Driver) : Prop where
  addr : s'.addr = t.addr
  availableEntries : s'.availableEntries = s.availableEntries
  empty_iff : ∀ i, (s'.entries i).inUse = .empty ↔ (s.entries i).inUse = .empty
  sourcePid : ∀ i, (s'.entries i).sourcePid = (s.entries i).sourcePid

/-- **What a live update takes over** of the table, whatever becomes of the buffers. -/
theorem takes_of_liveUpdate {t s₁ : Driver} {d₁ : DataStore} {r r' : ℤ}
    (hsave : sefCbLuStateSave d s = .ok ((r, d₁), s₁))
    (hrestore : luStateRestore choice d₁ t = .ok ((r', d'), s')) : Takes s t s' := by
  have hclip : d₁ "clipboard" = some (clipboardLayout.write s.toClipboard) := by
    rw [sefCbLuStateSave, StoreM.bind_ok (StoreM.lift_ok (get_apply s)),
      StoreM.bind_ok (dsPublishMem_apply _ _)] at hsave
    obtain ⟨_, e, u, hloop, hrest⟩ := StoreM.of_bind_ok hsave
    obtain ⟨hd, -⟩ := of_pure_ok hrest
    rw [← (Prod.mk.inj hd).2, clipboard_of_saveFrom (Nat.zero_add _) hloop, Function.update_self]
  have htake : (clipboardLayout.write s.toClipboard).take clipboardLayout.size
      = clipboardLayout.write s.toClipboard := by
    rw [← clipboardLayout.length_write s.toClipboard, List.take_length]
  rw [luStateRestore, StoreM.bind_ok (dsRetrieveMem_apply _ _), hclip, Option.map_some, htake]
    at hrestore
  simp only [] at hrestore
  rw [StoreM.bind_ok (StoreM.lift_ok (modify_apply _ t)), Layout.overlay_write,
    StoreM.bind_ok (dsDeleteMem_apply _)] at hrestore
  obtain ⟨_, e, u, hloop, hrest⟩ := StoreM.of_bind_ok hrestore
  obtain ⟨-, rfl⟩ := of_pure_ok hrest
  have hsame := sameIds_of_restoreFrom (Nat.zero_add _) hloop
  exact ⟨hsame.addr, hsame.availableEntries, hsame.empty_iff, hsame.sourcePid⟩

theorem Takes.sameIds {t : Driver} (h : Takes s t s') (haddr : t.addr = s.addr) : SameIds s s' :=
  ⟨h.addr.trans haddr, h.availableEntries, h.empty_iff, h.sourcePid⟩

end Update

/-! ## The service -/

/-- The types `sef_cb_init` is called with. -/
inductive SefInit
  /-- `SEF_INIT_FRESH` -/
  | fresh
  /-- `SEF_INIT_LU` -/
  | lu
  /-- `SEF_INIT_RESTART` -/
  | restart
  deriving DecidableEq, Repr

/-- `sef_cb_init`, for an allocator that makes these choices. -/
def sefCbInit (choice : ℕ → Option Addr) : SefInit → StoreM ℤ
  | .fresh => do
    (modify clipboardInit : DriverM Unit)
    return ok
  | .lu => do
    let _ ← luStateRestore choice
    return ok
  | .restart => return ok

/-- Where a linker may have put `CLIPBOARD.available_entries`: at the address of a word, with the
whole of it in the address space. -/
structure Place where
  addr : Addr
  aligned : 4 ∣ addr.toNat
  fits : Stack.Fits addr

/-- The instance that runs, and the data store, which outlives it. -/
structure Service where
  driver : Driver
  store : DataStore

/-- What can happen to a service. -/
inductive LifeEvent
  /-- A request is served. -/
  | request (req : Request) (reply : Reply)
  /-- A new version takes over, whose variables lie here and whose allocator makes these choices. -/
  | liveUpdate (p : Place) (choice : ℕ → Option Addr)
  /-- The instance has crashed, and is started again with its variables here. -/
  | crash (p : Place)

/-- One event in the life of a service. A new instance starts with zero-initialised statics. -/
inductive Lives : Service → LifeEvent → Service → Prop
  | request {s s' : Driver} {d : DataStore} {req : Request} {reply : Reply}
      (h : Serves s (req, reply) s') : Lives ⟨s, d⟩ (.request req reply) ⟨s', d⟩
  | liveUpdate {s s₁ s' : Driver} {d d₁ d' : DataStore} {p : Place} {choice : ℕ → Option Addr}
      {r r' : ℤ} (hsave : sefCbLuStateSave d s = .ok ((r, d₁), s₁))
      (hinit : sefCbInit choice .lu d₁ (load₀ p.addr) = .ok ((r', d'), s')) :
      Lives ⟨s, d⟩ (.liveUpdate p choice) ⟨s', d'⟩
  | crash {s s' : Driver} {d d' : DataStore} {p : Place} {choice : ℕ → Option Addr} {r : ℤ}
      (hinit : sefCbInit choice .restart d (load₀ p.addr) = .ok ((r, d'), s')) :
      Lives ⟨s, d⟩ (.crash p) ⟨s', d'⟩

/-- A service that has just been started for the first time. -/
def started (p : Place) (d : DataStore) : Service := ⟨initial p.addr, d⟩

/-- That is what `SEF_INIT_FRESH` makes of a new instance. -/
theorem sefCbInit_fresh (choice : ℕ → Option Addr) (p : Place) (d : DataStore) :
    sefCbInit choice .fresh d (load₀ p.addr)
      = .ok ((ok, (started p d).store), (started p d).driver) := rfl

/-- The event is no restart, and a new version has its table where the old one had it. -/
def StaysPut (e : Event Service LifeEvent) : Prop :=
  match e.label with
  | .request _ _ => True
  | .liveUpdate p _ => p.addr = e.pre.driver.addr
  | .crash _ => False

/-- A restarted instance has zeros on its stack, and its pointer points nowhere. -/
theorem not_freeSlots_load₀ (addr : Addr) : ¬FreeSlots (load₀ addr) := by
  intro h
  have hmem := (h.mem_iff ⟨1, by decide⟩).mpr rfl
  rw [Stack.below, List.mem_map] at hmem
  obtain ⟨k, -, hk⟩ := hmem
  exact absurd hk (by decide : ¬(0 : UInt32) = UInt32.ofNat 1)

theorem FreeSlots.length_below (h : FreeSlots s) (ha : Stack.Fits s.addr) :
    (s.availableEntries.below s.addr).length
      = (s.availableEntries.current.toNat - s.addr.toNat) / 4 := by
  have hle := UInt32.le_iff_toNat_le.mp h.le_upper
  rw [Stack.upperBound_toNat ha] at hle
  have hsub : (s.availableEntries.current - s.addr).toNat
      = s.availableEntries.current.toNat - s.addr.toNat :=
    UInt32.toNat_sub_of_le _ _ h.lower_le
  rw [Stack.below, List.length_map, List.length_take, List.length_finRange, hsub]
  omega

theorem FreeSlots.length_below_eq (h : FreeSlots s) (h' : FreeSlots s')
    (huse : ∀ i, (s'.entries i).inUse = .empty ↔ (s.entries i).inUse = .empty) :
    (s'.availableEntries.below s'.addr).length = (s.availableEntries.below s.addr).length := by
  -- without repetitions, the same members are as many
  refine ((List.perm_ext_iff_of_nodup h'.nodup h.nodup).mpr fun id ↦ ?_).length_eq
  by_cases hid : id.toNat < bufMaxCount
  · have hfin : UInt32.ofNat (⟨id.toNat, hid⟩ : Fin bufMaxCount).val = id := UInt32.ofNat_toNat
    rw [← hfin, h'.mem_iff, h.mem_iff, huse]
  · exact iff_of_false (fun hmem ↦ hid (h'.lt id hmem)) fun hmem ↦ hid (h.lt id hmem)

/-- A stack that has been copied is in order only where it has not moved. -/
theorem InOrder.addr_eq_of_takes {t : Driver} (h : InOrder s) (htakes : Takes s t s')
    (hslots : FreeSlots s') (hfits : Stack.Fits t.addr) (haligned : 4 ∣ t.addr.toNat) :
    t.addr = s.addr := by
  have hlen := h.freeSlots.length_below_eq hslots htakes.empty_iff
  rw [hslots.length_below (by rw [htakes.addr]; exact hfits), h.freeSlots.length_below h.fits,
    htakes.availableEntries, htakes.addr] at hlen
  have hlower := UInt32.le_iff_toNat_le.mp hslots.lower_le
  rw [Stack.lowerBound, htakes.availableEntries, htakes.addr] at hlower
  obtain ⟨ids, hids⟩ := h.free
  have hcurrent := hids.holds.current
  have haligned' := h.aligned
  -- one pointer, one number of ids below it: both stacks begin at the same address
  rw [← UInt32.toNat_inj]
  omega

/-- One event keeps the stack in order, if it is one that does. -/
theorem InOrder.of_lives {v v' : Service} {l : LifeEvent} (h : InOrder v.driver)
    (hl : Lives v l v') (hput : StaysPut ⟨v, l, v'⟩) : InOrder v'.driver := by
  cases hl with
  | request hs => exact h.of_serves hs
  | @liveUpdate s s₁ s' d d₁ d' p choice r r' hsave hinit =>
    obtain ⟨_, e, t, hrestore, hrest⟩ := StoreM.of_bind_ok hinit
    obtain ⟨-, rfl⟩ := of_pure_ok hrest
    exact h.of_sameIds ((takes_of_liveUpdate hsave hrestore).sameIds hput)
  | crash hinit => exact hput.elim

theorem InOrder.staysPut {v v' : Service} {l : LifeEvent} (h : InOrder v.driver)
    (hl : Lives v l v') (hslots : FreeSlots v'.driver) : StaysPut ⟨v, l, v'⟩ := by
  cases hl with
  | request hs => trivial
  | @liveUpdate s s₁ s' d d₁ d' p choice r r' hsave hinit =>
    obtain ⟨_, e, t, hrestore, hrest⟩ := StoreM.of_bind_ok hinit
    obtain ⟨-, rfl⟩ := of_pure_ok hrest
    exact h.addr_eq_of_takes (takes_of_liveUpdate hsave hrestore) hslots p.fits p.aligned
  | crash hinit =>
    obtain ⟨-, rfl⟩ := of_pure_ok hinit
    exact absurd hslots (not_freeSlots_load₀ _)

theorem inOrder_started (p : Place) (d : DataStore) : InOrder (started p d).driver :=
  ⟨p.fits, p.aligned, (inv_initial p.fits).free⟩

/-- **The free-id stack over the life of a service.** Whatever requests are served in between, the
stack is in order after every event exactly if no instance is restarted and every new version has
its table at the address of the old one. -/
theorem freeSlots_iff {p : Place} {d : DataStore} {h : List (Event Service LifeEvent)} {v : Service}
    (hrun : Run Lives (started p d) h v) :
    FreeSlots (started p d).driver ∧
      ((∀ e ∈ h, FreeSlots e.post.driver) ↔ ∀ e ∈ h, StaysPut e) := by
  refine ⟨(inOrder_started p d).freeSlots, hrun.forall_post_iff
    (I := fun v ↦ InOrder v.driver) (P := fun v ↦ FreeSlots v.driver) (inOrder_started p d) ?_ ?_⟩
  · intro e hI hl hput
    have hI' := hI.of_lives hl hput
    exact ⟨hI', hI'.freeSlots⟩
  · intro e hI hl hslots
    exact hI.staysPut hl hslots

def samplePlace : Place := ⟨4096, by decide, by decide⟩

theorem lives_crash (v : Service) (p : Place) : Lives v (.crash p) ⟨load₀ p.addr, v.store⟩ :=
  @Lives.crash _ _ _ _ _ (fun _ ↦ none) _ rfl

/-- The driver stores an entry, crashes, and is started again. -/
theorem freeSlots_iff_sample : FreeSlots (started samplePlace fun _ ↦ none).driver ∧
    ((∀ e ∈ [⟨started samplePlace fun _ ↦ none, .request sampleSet ⟨99, none⟩,
          ⟨after sampleSet (initial 4096), fun _ ↦ none⟩⟩,
        ⟨⟨after sampleSet (initial 4096), fun _ ↦ none⟩, .crash samplePlace,
          ⟨load₀ 4096, fun _ ↦ none⟩⟩],
        FreeSlots (Event.post (S := Service) (L := LifeEvent) e).driver) ↔
      ∀ e ∈ [⟨started samplePlace fun _ ↦ none, .request sampleSet ⟨99, none⟩,
          ⟨after sampleSet (initial 4096), fun _ ↦ none⟩⟩,
        ⟨⟨after sampleSet (initial 4096), fun _ ↦ none⟩, .crash samplePlace,
          ⟨load₀ 4096, fun _ ↦ none⟩⟩], StaysPut e) :=
  freeSlots_iff ((Run.nil.snoc (.request serves_sampleSet)).snoc (lives_crash _ _))

/-- A driver that has just been started is restarted, and its stack is not in order. -/
theorem not_freeSlots_of_crash : ¬∀ (p : Place) (d : DataStore)
    (h : List (Event Service LifeEvent)) (v : Service), Run Lives (started p d) h v →
    ∀ e ∈ h, FreeSlots e.post.driver := by
  intro hclaim
  have hrun : Run Lives (started samplePlace fun _ ↦ none) [_] _ :=
    Run.nil.snoc (lives_crash _ samplePlace)
  exact not_freeSlots_load₀ 4096 (hclaim _ _ _ _ hrun _ (List.mem_singleton_self _))

end Driver

end MinixClipboard
