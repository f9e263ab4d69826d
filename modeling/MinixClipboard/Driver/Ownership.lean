import MinixClipboard.Driver.LifeCycle
import Mathlib.Data.Fintype.Pigeonhole
import Mathlib.Data.Set.Card

/-!
# Blocks and their owners

Every block on the heap of the driver is the buffer of an entry in use, over the whole life of a
service: a request that empties an entry frees its buffer, and a new version starts with an empty
heap and allocates a buffer for every entry it takes over. Nothing is assumed of the allocator, so
this holds as well where a buffer is missing, and what has not been stored for lack of memory is not
kept either.

There are no more blocks than entries, then, and an allocator that can return any address has one to
return (`Owned.exists_fresh`).
-/

namespace MinixClipboard

namespace Driver

open Fallible

variable {s s' : Driver} {i : Fin bufMaxCount}

/-! ## What a request that returns has done -/

theorem top_state {v : UInt32} (h : top s = .ok (v, s')) : s' = s := by
  rw [top, bind_ok (get_apply s)] at h
  exact (of_lift_ok h).2.symm

theorem load_state {a : Addr} {size : UInt32} {bytes : List CChar}
    (h : load a size s = .ok (bytes, s')) : s' = s := by
  rw [load, bind_ok (get_apply s)] at h
  cases hload : s.heap.load a size.toNat with
  | none =>
    rw [hload] at h
    simp [throw_apply] at h
  | some bytes =>
    rw [hload] at h
    exact (of_pure_ok h).2.symm

theorem of_push {v : UInt32} {u : Unit} (h : push v s = .ok (u, s')) :
    ∃ stack, s' = s.withStack stack := by
  rw [push, bind_ok (get_apply s)] at h
  obtain ⟨stack, t, hpush, hset⟩ := of_bind_ok h
  obtain ⟨-, rfl⟩ := of_lift_ok hpush
  exact ⟨stack, (of_pure_ok hset).2.symm⟩

theorem of_free {a : Addr} {u : Unit} (h : free a s = .ok (u, s')) :
    ∃ heap, s.heap.free a = some heap ∧ s' = s.withHeap heap := by
  rw [free, bind_ok (get_apply s)] at h
  cases hfree : s.heap.free a with
  | none =>
    rw [hfree] at h
    simp [throw_apply] at h
  | some heap =>
    rw [hfree] at h
    exact ⟨heap, rfl, (of_pure_ok h).2.symm⟩

/-- A set that returns has filled a slot, with what `malloc` and the copy have made of the heap, or
at most an id is gone. -/
theorem set_cases {msg : SetMsg} {choice : Option Addr} {r : ℤ}
    (hset : doClipboardSet msg choice s = .ok (r, s')) :
    (∃ stack, s' = s.withStack stack) ∨ ∃ i a heap₁ heap, (s.entries i).inUse = .empty ∧
      s.heap.malloc 0 choice msg.bufferLen.toNat = (a, heap₁) ∧
      heap₁.store a (setBytes msg) = some heap ∧
      s' = (s.withStack s.availableEntries.pop).stored i msg a heap := by
  rw [doClipboardSet, bind_ok (get_apply s)] at hset
  split at hset
  · exact Or.inl ⟨s.availableEntries, (of_pure_ok hset).2.symm⟩
  obtain ⟨v, t, htop, hrest⟩ := of_bind_ok hset
  obtain rfl := top_state htop
  rw [bind_ok (pop_eq t)] at hrest
  by_cases hid : 0 ≤ asInt v ∧ asInt v < bufMaxCount
  · obtain ⟨i, hi⟩ : ∃ i : Fin bufMaxCount, asInt v = (i : ℕ) :=
      ⟨⟨(asInt v).toNat, toNat_lt_bufMaxCount hid⟩, (Int.toNat_of_nonneg hid.1).symm⟩
    rw [hi, bind_ok (busy_of_fin i _), bind_ok (locked_of_fin i _), withStack_entries] at hrest
    split at hrest
    · exact Or.inl ⟨_, (of_pure_ok hrest).2.symm⟩
    · rename_i huse
      have hempty : (t.entries i).inUse = .empty := by
        cases h : (t.entries i).inUse <;> simp [h] at huse ⊢
      obtain ⟨a, heap₁, hmalloc⟩ : ∃ a heap₁,
          t.heap.malloc 0 choice msg.bufferLen.toNat = (a, heap₁) := ⟨_, _, rfl⟩
      cases hstore : heap₁.store a (setBytes msg) with
      | none =>
        rw [bind_error (doClipboardRealSet_of_none (s := t.withStack t.availableEntries.pop)
          hmalloc hstore)] at hrest
        simp at hrest
      | some heap =>
        rw [bind_ok (doClipboardRealSet_of_some (s := t.withStack t.availableEntries.pop)
          hmalloc hstore)] at hrest
        exact Or.inr ⟨i, a, heap₁, heap, hempty, hmalloc, hstore, (of_pure_ok hrest).2.symm⟩
  · -- the word on top of a stack that is out of order may be no id at all
    have hbusy : busy (asInt v) (t.withStack t.availableEntries.pop) = .error (.index (asInt v)) :=
      bind_error (slot_of_not hid _) _
    rw [bind_error hbusy] at hrest
    simp at hrest

/-- A get that returns has emptied a slot and freed its buffer, or there was no lock. -/
theorem get_cases {pid : Int32} {msg : GetMsg} {r : ℤ × GetMsg}
    (hget : doClipboardGet msg pid s = .ok (r, s')) :
    s' = s ∨ ∃ i stack heap, (s.entries i).inUse ≠ .empty ∧
      s.heap.free (s.entries i).buffer = some heap ∧ s' = s.emptied i stack heap := by
  cases hlock : s.lock? pid with
  | none =>
    rw [doClipboardGet_of_none hlock] at hget
    exact Or.inl (of_pure_ok hget).2.symm
  | some i =>
    have huse := (of_lock?_eq_some hlock).2
    rw [doClipboardGet, bind_ok (getLockId_eq _ _), hlock, idOf, if_neg (by omega),
      bind_ok (entry_of_fin i s), bind_ok (entry_of_fin i s)] at hget
    obtain ⟨bytes, t, hload, hrest⟩ := of_bind_ok hget
    obtain rfl := load_state hload
    rw [bind_ok (entry_of_fin i t), bind_ok (entry_of_fin i t), ofInt_natCast] at hrest
    obtain ⟨_, t₁, hdelete, hret⟩ := of_bind_ok hrest
    obtain ⟨-, rfl⟩ := of_pure_ok hret
    rw [deleteEntry, asInt_of_fin, bind_ok (locked_of_fin i t), huse, if_pos (by decide)] at hdelete
    obtain ⟨_, t₂, hpush, hdelete⟩ := of_bind_ok hdelete
    obtain ⟨stack, rfl⟩ := of_push hpush
    rw [bind_ok (entry_of_fin i _)] at hdelete
    obtain ⟨_, t₃, hfreed, hmodify⟩ := of_bind_ok hdelete
    obtain ⟨heap, hfree, rfl⟩ := of_free hfreed
    rw [modifyEntry_of_fin, Except.ok.injEq, Prod.mk.injEq] at hmodify
    exact Or.inr ⟨i, stack, heap, by simp [huse], hfree, hmodify.2.symm⟩

theorem sameButLocks_of_lock {msg : LockMsg} {r : ℤ}
    (hlock : doClipboardLock msg s = .ok (r, s')) : SameButLocks s s' := by
  by_cases hid : msg.id.toNat < bufMaxCount
  · have hsame := sameButLocks_unlocked s msg.pid.toInt32
    rw [doClipboardLock_eq msg hid] at hlock
    split at hlock
    · rename_i hcond
      obtain ⟨-, rfl⟩ := of_pure_ok hlock
      exact hsame.trans (sameButLocks_lockedAt (by simp [hcond.1]))
    · obtain ⟨-, rfl⟩ := of_pure_ok hlock
      exact hsame
  · rw [doClipboardLock_of_le msg (Nat.not_lt.mp hid)] at hlock
    simp at hlock

/-! ## Owners -/

/-- Every block is the buffer of an entry in use. -/
structure Owned (s : Driver) : Prop where
  null : s.heap 0 = none
  owner : ∀ a, (s.heap a).isSome → ∃ i, (s.entries i).inUse ≠ .empty ∧ (s.entries i).buffer = a

theorem owned_of_heap_eq (h : s.heap = fun _ ↦ none) : Owned s :=
  ⟨by rw [h], fun a ha ↦ by simp [h] at ha⟩

theorem Owned.of_sameButLocks (h : Owned s) (hsame : SameButLocks s s') : Owned s' where
  null := by rw [hsame.heap, h.null]
  owner a ha := by
    rw [hsame.heap] at ha
    obtain ⟨i, hi, rfl⟩ := h.owner a ha
    exact ⟨i, (hsame.empty_iff i).not.mpr hi, congrArg Payload.buffer (hsame.payload s.heap i)⟩

theorem Owned.stored (h : Owned s) (hi : (s.entries i).inUse = .empty) {msg : SetMsg}
    {choice : Option Addr} {a : Addr} {heap₁ heap : CHeap} {n : ℕ}
    (hmalloc : s.heap.malloc 0 choice n = (a, heap₁))
    (hstore : heap₁.store a (setBytes msg) = some heap) :
    Owned ((s.withStack s.availableEntries.pop).stored i msg a heap) := by
  have hsome := Heap.isSome_store hstore
  refine ⟨?_, fun b hb ↦ ?_⟩
  · have hnull : (s.heap.malloc 0 choice n).2 0 = none := Heap.malloc_null h.null
    have h₀ := hsome 0
    rw [hmalloc] at hnull
    rw [show heap₁ 0 = none from hnull] at h₀
    exact Option.isNone_iff_eq_none.mp (Option.isSome_eq_false_iff.mp h₀)
  · have hb' : ((s.heap.malloc 0 choice n).2 b).isSome := by
      rw [hmalloc, ← hsome]
      exact hb
    rcases Heap.isSome_malloc hb' with hold | hnew
    · obtain ⟨j, hj, rfl⟩ := h.owner b hold
      have hji : j ≠ i := by
        rintro rfl
        exact hj hi
      exact ⟨j, by rwa [stored_entries_of_ne hji], by rw [stored_entries_of_ne hji]; rfl⟩
    · rw [hmalloc] at hnew
      refine ⟨i, ?_, ?_⟩ <;> rw [stored_entries_self]
      · simp [setEntry]
      · exact hnew.symm

theorem Owned.emptied (h : Owned s) {stack : Stack} {heap : CHeap}
    (hfree : s.heap.free (s.entries i).buffer = some heap) : Owned (s.emptied i stack heap) := by
  have hsub : ∀ b, (heap b).isSome → _ := fun b ↦ Heap.isSome_of_free (b := b) hfree
  refine ⟨?_, fun b hb ↦ ?_⟩
  · by_contra hne
    have h₀ := (hsub 0 (Option.isSome_iff_ne_none.mpr hne)).1
    rw [h.null] at h₀
    simp at h₀
  · obtain ⟨hold, hne⟩ := hsub b hb
    obtain ⟨j, hj, rfl⟩ := h.owner b hold
    have hji : j ≠ i := by
      rintro rfl
      -- a buffer that was not freed is `NULL`, where no block is
      by_cases h₀ : (s.entries j).buffer = 0
      · rw [h₀, h.null] at hold
        simp at hold
      · exact hne h₀ rfl
    exact ⟨j, by rwa [emptied_entries_of_ne hji], by rw [emptied_entries_of_ne hji]⟩

theorem Owned.of_serves (h : Owned s) {l : Request × Reply}
    (hs : Serves s l s') : Owned s' := by
  obtain ⟨req, reply⟩ := l
  cases req with
  | set msg choice =>
    obtain ⟨r, hset, -⟩ := serves_set_iff.mp hs
    rcases set_cases hset with ⟨stack, rfl⟩ | ⟨i, a, heap₁, heap, hi, hmalloc, hstore, rfl⟩
    · exact ⟨h.null, h.owner⟩
    · exact h.stored hi hmalloc hstore
  | lock msg =>
    obtain ⟨r, hlock, -⟩ := serves_lock_iff.mp hs
    exact h.of_sameButLocks (sameButLocks_of_lock hlock)
  | get pid msg =>
    obtain ⟨r, hget, -⟩ := serves_get_iff.mp hs
    rcases get_cases hget with rfl | ⟨i, stack, heap, -, hfree, rfl⟩
    · exact h
    · exact h.emptied hfree
  | query size =>
    obtain ⟨r, hquery, -⟩ := serves_query_iff.mp hs
    rw [eq_of_query hquery]
    exact h

/-! ## Live updates -/

section Update

variable {d d' : DataStore} {choice : ℕ → Option Addr} {k n : ℕ}

/-- Every block is the buffer of an entry in use with an id below `k`. -/
structure OwnedBelow (k : ℕ) (s : Driver) : Prop where
  null : s.heap 0 = none
  owner : ∀ a, (s.heap a).isSome →
    ∃ i : Fin bufMaxCount, i < k ∧ (s.entries i).inUse ≠ .empty ∧ (s.entries i).buffer = a

theorem OwnedBelow.mono (h : OwnedBelow k s) {m : ℕ} (hkm : k ≤ m) : OwnedBelow m s where
  null := h.null
  owner a ha := by
    obtain ⟨i, hi, huse, rfl⟩ := h.owner a ha
    exact ⟨i, hi.trans_le hkm, huse, rfl⟩

theorem OwnedBelow.placed (h : OwnedBelow i s) (huse : (s.entries i).inUse ≠ .empty)
    {c : Option Addr} {m : ℕ} {heap : CHeap}
    (hsome : ∀ b, (heap b).isSome = ((s.heap.malloc 0 c m).2 b).isSome) :
    OwnedBelow (i + 1)
      ((s.update i fun e ↦ { e with buffer := (s.heap.malloc 0 c m).1 }).withHeap heap) := by
  refine ⟨?_, fun b hb ↦ ?_⟩
  · have hnull : (s.heap.malloc 0 c m).2 0 = none := Heap.malloc_null h.null
    have h₀ := hsome 0
    rw [hnull] at h₀
    exact Option.isNone_iff_eq_none.mp (Option.isSome_eq_false_iff.mp h₀)
  · rcases Heap.isSome_malloc ((hsome b).symm.trans hb) with hold | hnew
    · obtain ⟨j, hj, hjuse, rfl⟩ := h.owner b hold
      have hji : j ≠ i := Fin.ne_of_lt hj
      refine ⟨j, by omega, ?_, ?_⟩ <;> rw [withHeap_entries, update_entries_of_ne hji]
      exact hjuse
    · refine ⟨i, by omega, ?_, ?_⟩ <;> rw [withHeap_entries, update_entries_self]
      · exact huse
      · exact hnew.symm

theorem isSome_getD_store (heap : CHeap) (a : Addr) (bytes : List CChar) (b : Addr) :
    (((heap.store a bytes).getD heap) b).isSome = (heap b).isSome := by
  cases hstore : heap.store a bytes with
  | none => rfl
  | some heap' => exact Heap.isSome_store hstore b

/-- **The loop of a restore** allocates for the entries in use and for nothing else. -/
theorem OwnedBelow.of_restoreFrom (hk : k + n = bufMaxCount) (h : OwnedBelow k s)
    (hrestore : restoreFrom choice n k d s = .ok (((), d'), s')) : OwnedBelow bufMaxCount s' := by
  induction n generalizing k d s with
  | zero =>
    obtain ⟨-, rfl⟩ := of_pure_ok hrestore
    exact h.mono (by omega)
  | succ n ih =>
    have hk' : k + 1 + n = bufMaxCount := by omega
    obtain ⟨i, rfl⟩ : ∃ i : Fin bufMaxCount, (i : ℕ) = k := ⟨⟨k, by omega⟩, rfl⟩
    by_cases huse : (s.entries i).inUse = .empty
    · rw [restoreFrom_of_empty huse] at hrestore
      exact ih hk' (h.mono (Nat.le_succ _)) hrestore
    · rw [restoreFrom, StoreM.bind_ok (StoreM.lift_ok (slot_of_fin i s)), if_pos huse,
        StoreM.bind_ok (StoreM.lift_ok (entry_of_fin i s)),
        StoreM.bind_ok (StoreM.lift_ok (malloc_eq _ _ s)),
        StoreM.bind_ok (StoreM.lift_ok (modifyEntry_of_fin i _ _)),
        StoreM.bind_ok (StoreM.lift_ok (entry_of_fin i _)),
        StoreM.bind_ok (dsRetrieveMem_apply _ _)] at hrestore
      -- the bytes are copied to the new block if the data store has them
      generalize d (bufName i) = x at hrestore
      cases x with
      | none =>
        simp only [Option.map_none] at hrestore
        rw [StoreM.bind_ok (dsDeleteMem_apply _)] at hrestore
        exact ih hk' (h.placed huse fun _ ↦ rfl) hrestore
      | some bytes =>
        simp only [Option.map_some] at hrestore
        rw [StoreM.bind_ok (StoreM.lift_ok (entry_of_fin i _)),
          StoreM.bind_ok (StoreM.lift_ok (dsCopyTo_apply _ _ _)),
          StoreM.bind_ok (dsDeleteMem_apply _)] at hrestore
        exact ih hk' (h.placed huse fun b ↦ isSome_getD_store _ _ _ b) hrestore

theorem owned_of_luStateRestore {addr : Addr} {r : ℤ}
    (h : luStateRestore choice d (load₀ addr) = .ok ((r, d'), s')) : Owned s' := by
  rw [luStateRestore, StoreM.bind_ok (dsRetrieveMem_apply _ _)] at h
  -- the table is copied over that of the new instance, whose heap is empty
  generalize d "clipboard" = x at h
  have hloop : ∃ t e, t.heap = (fun _ ↦ none) ∧
      restoreFrom choice bufMaxCount 0 e t = .ok (((), d'), s') := by
    cases x with
    | none =>
      simp only [Option.map_none] at h
      rw [StoreM.bind_ok (dsDeleteMem_apply _)] at h
      obtain ⟨_, e, u, hloop, hrest⟩ := StoreM.of_bind_ok h
      obtain ⟨hd, rfl⟩ := of_pure_ok hrest
      obtain ⟨-, rfl⟩ := Prod.mk.inj hd
      exact ⟨_, _, rfl, hloop⟩
    | some bytes =>
      simp only [Option.map_some] at h
      rw [StoreM.bind_ok (StoreM.lift_ok (modify_apply _ _)),
        StoreM.bind_ok (dsDeleteMem_apply _)] at h
      obtain ⟨_, e, u, hloop, hrest⟩ := StoreM.of_bind_ok h
      obtain ⟨hd, rfl⟩ := of_pure_ok hrest
      obtain ⟨-, rfl⟩ := Prod.mk.inj hd
      exact ⟨_, _, rfl, hloop⟩
  obtain ⟨t, e, hheap, hloop⟩ := hloop
  have hstart : OwnedBelow 0 t := ⟨by rw [hheap], fun a ha ↦ by simp [hheap] at ha⟩
  have hend := hstart.of_restoreFrom (Nat.zero_add _) hloop
  exact ⟨hend.null, fun a ha ↦ (hend.owner a ha).imp fun _ hi ↦ hi.2⟩

end Update

/-! ## The life of a service -/

theorem Owned.of_lives {v v' : Service} {l : LifeEvent} (h : Owned v.driver) (hl : Lives v l v') :
    Owned v'.driver := by
  cases hl with
  | request hs => exact h.of_serves hs
  | liveUpdate hsave hinit =>
    obtain ⟨_, e, t, hrestore, hrest⟩ := StoreM.of_bind_ok hinit
    obtain ⟨hd, rfl⟩ := of_pure_ok hrest
    exact owned_of_luStateRestore hrestore
  | crash hinit =>
    obtain ⟨-, rfl⟩ := of_pure_ok hinit
    exact owned_of_heap_eq rfl

def blocks (s : Driver) : Set Addr := {a | (s.heap a).isSome}

theorem Owned.ncard_blocks_le (h : Owned s) : s.blocks.ncard ≤ s.occupied.card := by
  have hsub : s.blocks ⊆ (s.occupied.image fun i ↦ (s.entries i).buffer : Finset Addr) := by
    intro a ha
    obtain ⟨i, hi, hia⟩ := h.owner a ha
    rw [Finset.coe_image]
    exact ⟨i, by simp [occupied, hi], hia⟩
  calc s.blocks.ncard
      ≤ (s.occupied.image fun i ↦ (s.entries i).buffer).card := by
        rw [← Set.ncard_coe_finset]
        exact Set.ncard_le_ncard hsub (Finset.finite_toSet _)
    _ ≤ s.occupied.card := Finset.card_image_le

theorem Owned.exists_fresh (h : Owned s) : ∃ a, s.heap.Fresh a := by
  by_contra hnot
  -- otherwise the addresses from 1 to 101 would belong to as many entries
  have hword : ∀ k : Fin (bufMaxCount + 1), (UInt32.ofNat (k + 1)).toNat = k + 1 := by
    intro k
    have hk : (k : ℕ) < 100 + 1 := k.isLt
    exact UInt32.toNat_ofNat_of_lt' (by simp only [UInt32.size]; omega)
  have howner : ∀ k : Fin (bufMaxCount + 1), ∃ i, (s.entries i).buffer = UInt32.ofNat (k + 1) := by
    intro k
    have hne : UInt32.ofNat (k + 1) ≠ 0 := by
      intro h₀
      have hnat := (hword k).symm.trans (congrArg UInt32.toNat h₀)
      simp at hnat
    have hsome : (s.heap (UInt32.ofNat (k + 1))).isSome := by
      rw [Option.isSome_iff_ne_none]
      exact fun hnone ↦ hnot ⟨_, hne, hnone⟩
    obtain ⟨i, -, hi⟩ := h.owner _ hsome
    exact ⟨i, hi⟩
  choose f hf using howner
  obtain ⟨k, k', hkk, heq⟩ := Fintype.exists_ne_map_eq_of_card_lt f (by simp)
  have hnat := hword k
  rw [← hf k, heq, hf k', hword] at hnat
  exact hkk (Fin.ext (by omega))

/-- **No block is lost.** In every life of a service, whatever the allocator does, wherever new
versions have their variables and however often the driver crashes, every block on the heap is the
buffer of an entry in use, and there are no more blocks than such entries. -/
theorem blocks_owned_of_run {p : Place} {d : DataStore} {h : List (Event Service LifeEvent)}
    {v : Service} (hrun : Run Lives (started p d) h v) :
    ∀ u ∈ statesOf (started p d) h, (∀ a ∈ u.driver.blocks, ∃ i,
      (u.driver.entries i).inUse ≠ .empty ∧ (u.driver.entries i).buffer = a) ∧
      u.driver.blocks.ncard ≤ u.driver.occupied.card := by
  intro u hu
  have howned := hrun.forall_statesOf (P := fun v ↦ Owned v.driver) (Q := fun _ ↦ True)
    (owned_of_heap_eq rfl) (fun e h _ hl ↦ h.of_lives hl) (fun _ _ ↦ trivial) u hu
  exact ⟨howned.owner, howned.ncard_blocks_le⟩

def sampleStored : Service := ⟨after sampleSet (initial 4096), fun _ ↦ none⟩

/-- An entry is stored, and the driver crashes. -/
def sampleLife : List (Event Service LifeEvent) :=
  [⟨started samplePlace fun _ ↦ none, .request sampleSet ⟨99, none⟩, sampleStored⟩,
    ⟨sampleStored, .crash samplePlace, ⟨load₀ 4096, fun _ ↦ none⟩⟩]

theorem blocks_owned_of_run_sample :
    Run Lives (started samplePlace fun _ ↦ none) sampleLife ⟨load₀ 4096, fun _ ↦ none⟩ ∧
      ∀ u ∈ statesOf (started samplePlace fun _ ↦ none) sampleLife,
        (∀ a ∈ u.driver.blocks, ∃ i,
          (u.driver.entries i).inUse ≠ .empty ∧ (u.driver.entries i).buffer = a) ∧
        u.driver.blocks.ncard ≤ u.driver.occupied.card := by
  have hrun : Run Lives (started samplePlace fun _ ↦ none) sampleLife ⟨load₀ 4096, fun _ ↦ none⟩ :=
    (Run.nil.snoc (.request serves_sampleSet)).snoc (lives_crash _ _)
  exact ⟨hrun, blocks_owned_of_run hrun⟩

end Driver

end MinixClipboard
