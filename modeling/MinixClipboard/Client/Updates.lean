import MinixClipboard.Client.Refines
import MinixClipboard.Driver.Relocation

/-!
# Library calls and live updates

What has been copied before a live update is pasted after it: complete library calls, with any
number of updates in between, still implement a clipboard, and the updates are no steps of it. The
update keeps what makes a state quiet, for it copies every lock there is, and there is none.
-/

namespace MinixClipboard

open Fallible Program Driver

variable {ancestor : Int32 → Int32 → Bool} {s s' u : Driver} {d d' : DataStore}
  {i : Fin bufMaxCount}

/-! ## One update -/

/-- A live update changes where the bytes of a slot lie, and not who holds it. -/
theorem table_of_updated (hu : Updated s u d s' d') (i : Fin bufMaxCount) :
    s'.table i = (s.table i).map fun e ↦
      { e with value := { e.value with buffer := (s'.entries i).buffer } } := by
  have hpay : (s.entries i).inUse ≠ .empty → payload s'.heap (s'.entries i)
      = { payload s.heap (s.entries i) with buffer := (s'.entries i).buffer } := by
    intro hi
    rw [payload, payload, Heap.contents, (hu.bytes i hi).1, hu.entry i]
    rfl
  have huse : (s'.entries i).inUse = (s.entries i).inUse := by rw [hu.entry i]
  have hpid : (s'.entries i).lockingPid = (s.entries i).lockingPid := by rw [hu.entry i]
  cases hi : (s.entries i).inUse with
  | empty => rw [table_eq_none_iff.mpr hi, table_eq_none_iff.mpr (huse.trans hi), Option.map_none]
  | used =>
    rw [table, table, slotOf_of_used hi, slotOf_of_used (huse.trans hi), hpay (by simp [hi])]
    rfl
  | locked =>
    rw [table, table, slotOf_of_locked hi, slotOf_of_locked (huse.trans hi), hpay (by simp [hi]),
      hpid]
    rfl

theorem value_of_updated (hu : Updated s u d s' d') (i : Fin bufMaxCount) :
    LockTable.value s'.table i = (LockTable.value s.table i).map fun v ↦
      { v with buffer := (s'.entries i).buffer } := by
  rw [LockTable.value, LockTable.value, table_of_updated hu i, Option.map_map, Option.map_map]
  rfl

theorem clip_of_updated (hu : Updated s u d s' d') : clip s' = clip s := by
  funext i
  rw [clip, clip, value_of_updated hu i, Option.map_map]
  rfl

/-- **A live update of a quiet driver** leaves it quiet, with the same clipboard. -/
theorem Quiet.updated (hQ : Quiet s) (hu : Updated s u d s' d') (haddr : u.addr = s.addr) :
    Quiet s' where
  inv := hu.inv hQ.inv haddr
  unheld i e he := by
    rw [table_of_updated hu i] at he
    obtain ⟨x, hx, rfl⟩ := Option.map_eq_some_iff.mp he
    exact hQ.unheld i x hx
  copied i v hv := by
    rw [value_of_updated hu i] at hv
    obtain ⟨w, hw, rfl⟩ := Option.map_eq_some_iff.mp hv
    exact hQ.copied i w hw

/-! ## Histories -/

/-- What can happen to the device when it is only used through the library. -/
inductive LibraryEvent
  /-- A process makes a complete library call. -/
  | call (p : Int32) (c : LibCall) (r : Result)
  /-- A new version takes over. -/
  | liveUpdate (p : Place) (choice : ℕ → Option Addr)

def LibraryEvent.call? : LibraryEvent → Option (Int32 × LibCall × Result)
  | .call p c r => some (p, c, r)
  | .liveUpdate _ _ => none

/-- One such event. -/
inductive Hosts (ancestor : Int32 → Int32 → Bool) : Service → LibraryEvent → Service → Prop
  | call {s s' : Driver} {d : DataStore} {p : Int32} {c : LibCall} {r : Result}
      (h : Performs ancestor s (p, c, r) s') : Hosts ancestor ⟨s, d⟩ (.call p c r) ⟨s', d⟩
  | liveUpdate {v v' : Service} {p : Place} {choice : ℕ → Option Addr}
      (h : Lives v (.liveUpdate p choice) v') : Hosts ancestor v (.liveUpdate p choice) v'

/-- A live update finds memory and leaves the table where it is. -/
def InPlace (e : Event Service LibraryEvent) : Prop :=
  match e.label with
  | .call _ _ _ => True
  | .liveUpdate p choice =>
    p.addr = e.pre.driver.addr ∧ Allocates e.pre.driver (fun _ ↦ none) choice

/-- A quiet service and the clipboard it implements. -/
def Shows (v : Service) (m : Clip) : Prop := Quiet v.driver ∧ clip v.driver = m

theorem Shows.step {e : Event Service LibraryEvent} {m : Clip} (h : Shows e.pre m)
    (hplace : InPlace e) (he : Hosts ancestor e.pre e.label e.post) :
    e.label.call? = none ∧ Shows e.post m ∨
      ∃ l l' m', e.label.call? = some l ∧ ClipStep ancestor m l' m' ∧ l = l' ∧ Shows e.post m' := by
  obtain ⟨v, l, v'⟩ := e
  obtain ⟨hQ, rfl⟩ := h
  cases he with
  | call hcall =>
    obtain ⟨hQ', hstep⟩ := performs_refines (e := ⟨_, _, _⟩) hQ hcall
    exact Or.inr ⟨_, _, _, rfl, hstep, rfl, hQ', rfl⟩
  | @liveUpdate _ _ p choice hlu =>
    obtain ⟨haddr, hA⟩ : p.addr = v.driver.addr ∧ Allocates v.driver (fun _ ↦ none) choice :=
      hplace
    have hu := updated_of_lives hQ.inv hlu hA
    exact Or.inl ⟨rfl, hQ.updated hu haddr, clip_of_updated hu⟩

end MinixClipboard
