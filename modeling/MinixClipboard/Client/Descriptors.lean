import MinixClipboard.Client.Linked
import MinixClipboard.Client.Refines
import MinixClipboard.Library.Transition
import Mathlib.Data.Finset.Basic

/-!
# Descriptors

A library function opens the device for one call, and has to close it again wherever it returns. A
copy does. A paste that has opened the device closes it where it succeeds, and nowhere else: each of
its five refusals leaves the descriptor in the table of the process, and a table has an end.

What the calls are answered is left open, but for `open`: it fails, or it returns a descriptor that
is not in use and that the table has room for. The device may be in any state and do anything
(`Uses.of_device`).
-/

namespace MinixClipboard

open Program

/-- The table of open descriptors after a call. A descriptor is given up whether or not closing its
file succeeds. -/
def afterCall (T : Finset Int32) : Answered → Finset Int32
  | ⟨.openDevice, fd⟩ => if fd < 0 then T else insert fd T
  | ⟨.close fd, _⟩ => T.erase fd
  | ⟨.read _ _ _, _⟩ => T
  | ⟨.write _ _ _, _⟩ => T
  | ⟨.checkAncestor _ _, _⟩ => T
  | ⟨.getpid, _⟩ => T

/-- What `open` may return in a process that can have so many descriptors. -/
def Available (openMax : ℕ) (T : Finset Int32) : Answered → Prop
  | ⟨.openDevice, fd⟩ => 0 ≤ fd → fd ∉ T ∧ fd.toInt < openMax
  | _ => True

/-- The calls of a process as steps of its table. -/
def Files (openMax : ℕ) (T : Finset Int32) (op : KernelCall) (x : op.Answer) (T' : Finset Int32) :
    Prop := Available openMax T ⟨op, x⟩ ∧ T' = afterCall T ⟨op, x⟩

/-- A library call that has been made: its arguments, what its locals held, the calls it made, and
what it returned. -/
structure Performed where
  call : LibCall
  locals : Locals
  trace : List Answered
  result : Result

/-- A library call as a step of the table. -/
def Uses (openMax : ℕ) (T : Finset Int32) (l : Performed) (T' : Finset Int32) : Prop :=
  Runs (Files openMax) T (l.call.linked l.locals) l.trace l.result T'

/-- An answer after which a paste that has opened the device gives up. -/
def Refuses : Answered → Prop
  | ⟨.read _ _ _, x⟩ => x.1 < 0
  | ⟨.write _ _ _, a⟩ => a < 0
  | ⟨.checkAncestor _ _, a⟩ => toUint8 a = 0
  | _ => False

/-- A call after which the device is closed: a copy, a paste that could not open it, and a paste
that is given no reason to give up. -/
def ClosesAgain : LibCall → List Answered → Prop
  | .copy _ _, _ => True
  | .paste id _, tr => (∃ fd, ⟨.openDevice, fd⟩ ∈ tr ∧ fd < 0) ∨
      id.toNat < bufMaxCount ∧ ∀ c ∈ tr, ¬Refuses c

variable {openMax : ℕ} {T T' : Finset Int32} {l : Performed}

theorem Uses.of_device {D : Type} {device : D → (op : KernelCall) → op.Answer → D → Prop} {d d' : D}
    (h : Runs (fun q op x q' ↦ device q.1 op x q'.1 ∧ Files openMax q.2 op x q'.2) (d, T)
      (l.call.linked l.locals) l.trace l.result (d', T')) : Uses openMax T l T' :=
  h.mono Prod.snd fun _ _ _ _ hstep ↦ hstep.2

/-! ## One call -/

theorem Uses.eq_foldl (h : Uses openMax T l T') : T' = l.trace.foldl afterCall T :=
  Runs.eq_foldl (f := afterCall) (fun _ _ _ _ hstep ↦ hstep.2) h

theorem Uses.any (h : Uses openMax T l T') :
    Runs AnyAnswer () (l.call.linked l.locals) l.trace l.result () :=
  h.mono (fun _ ↦ ()) fun _ _ _ _ _ ↦ trivial

namespace CopyAnswers

variable {x : CopyAnswers} {buffer : Memory} {bufferLen : UInt32} {locals : Locals}

theorem foldl_trace (hmem : ⟨.openDevice, x.fd⟩ ∈ x.trace buffer bufferLen locals → 0 ≤ x.fd →
    x.fd ∉ T) : (x.trace buffer bufferLen locals).foldl afterCall T = T := by
  by_cases hlen : bufferLen.toNat > entryLenLimit
  · rw [trace, if_pos hlen, List.foldl_nil]
  by_cases hfd : x.fd < 0
  · simp [trace, hlen, hfd, afterCall]
  · have hclose := Finset.erase_insert (hmem (by simp [trace, hlen]) (Int32.not_lt.mp hfd))
    simpa [trace, hlen, hfd, afterCall] using hclose

end CopyAnswers

namespace PasteAnswers

variable {x : PasteAnswers} {id bufferLen : UInt32} {locals : Locals}

theorem closesAgain_iff :
    ClosesAgain (.paste id bufferLen) (x.trace id bufferLen locals) ↔
      x.fd < 0 ∨ id.toNat < bufMaxCount ∧ 0 ≤ x.sourcePid.1 ∧ toUint8 x.ancestor ≠ 0 ∧
        0 ≤ x.lock ∧ 0 ≤ x.get.1 := by
  have hopen : (∃ fd, (⟨.openDevice, fd⟩ : Answered) ∈ x.trace id bufferLen locals ∧ fd < 0) ↔
      x.fd < 0 := by
    simp [trace]
  rw [ClosesAgain, hopen]
  by_cases hfd : x.fd < 0
  · exact iff_of_true (Or.inl hfd) (Or.inl hfd)
  rw [or_iff_right hfd, or_iff_right hfd]
  refine and_congr_right fun hid ↦ ?_
  by_cases hsrc : x.sourcePid.1 < 0
  · simp [trace, Refuses, hfd, hid, hsrc]
  by_cases ha : toUint8 x.ancestor = 0
  · simp [trace, Refuses, hfd, hid, hsrc, ha]
  by_cases hlock : x.lock < 0
  · simp [trace, Refuses, hfd, hid, hsrc, ha, hlock]
  by_cases hget : x.get.1 < 0
  · simp [trace, Refuses, hfd, hid, hsrc, ha, hlock, hget]
  · have hall := And.intro (Int32.not_lt.mp hsrc) (And.intro (Int32.not_lt.mp hlock)
      (Int32.not_lt.mp hget))
    simp [trace, Refuses, hfd, hid, hsrc, ha, hlock, hget, hall]

theorem foldl_trace (hfd : 0 ≤ x.fd) (hmem : x.fd ∉ T) :
    (x.trace id bufferLen locals).foldl afterCall T =
      if id.toNat < bufMaxCount ∧ 0 ≤ x.sourcePid.1 ∧ toUint8 x.ancestor ≠ 0 ∧
        0 ≤ x.lock ∧ 0 ≤ x.get.1 then T else insert x.fd T := by
  have hneg := Int32.not_lt.mpr hfd
  have hclose := Finset.erase_insert hmem
  by_cases hid : id.toNat ≥ bufMaxCount
  · simp [trace, afterCall, hneg, hid]
  by_cases hsrc : x.sourcePid.1 < 0
  · simp [trace, afterCall, hneg, hid, hsrc]
  by_cases ha : toUint8 x.ancestor = 0
  · simp [trace, afterCall, hneg, hid, hsrc, ha]
  by_cases hlock : x.lock < 0
  · simp [trace, afterCall, hneg, hid, hsrc, ha, hlock]
  by_cases hget : x.get.1 < 0
  · simp [trace, afterCall, hneg, hid, hsrc, ha, hlock, hget]
  · rw [if_pos ⟨Nat.not_le.mp hid, Int32.not_lt.mp hsrc, ha, Int32.not_lt.mp hlock,
      Int32.not_lt.mp hget⟩, ← hclose]
    simp [trace, afterCall, hneg, hid, hsrc, ha, hlock, hget]

end PasteAnswers

theorem Performed.eq_cons_of_mem {fd : Int32} (h : Uses openMax T l T')
    (hmem : ⟨.openDevice, fd⟩ ∈ l.trace) : ∃ tr, l.trace = ⟨.openDevice, fd⟩ :: tr := by
  obtain ⟨c, locals, tr, r⟩ := l
  cases c with
  | copy buffer bufferLen =>
    obtain ⟨x, htr, -⟩ := runs_copy_iff.mp h.any
    simp only [] at htr hmem
    subst htr
    by_cases hlen : bufferLen.toNat > entryLenLimit
    · simp [CopyAnswers.trace, hlen] at hmem
    · obtain rfl : fd = x.fd := by simpa [CopyAnswers.trace, hlen] using hmem
      exact ⟨_, if_neg hlen⟩
  | paste id bufferLen =>
    obtain ⟨x, htr, -⟩ := runs_paste_iff.mp h.any
    simp only [] at htr hmem
    subst htr
    obtain rfl : fd = x.fd := by simpa [PasteAnswers.trace] using hmem
    exact ⟨_, rfl⟩

/-- The descriptor a call works with is not in use when the call begins. -/
theorem Uses.not_mem {fd : Int32} (h : Uses openMax T l T')
    (hmem : ⟨.openDevice, fd⟩ ∈ l.trace) (hfd : 0 ≤ fd) : fd ∉ T ∧ fd.toInt < openMax := by
  obtain ⟨tr, htr⟩ := Performed.eq_cons_of_mem h hmem
  rw [Uses, htr] at h
  obtain ⟨_, havail, -⟩ := h.head
  exact havail hfd

/-- **One call** takes nothing from the table, and leaves it as it was just when the device is
closed again. -/
theorem Uses.subset_and_eq_iff (h : Uses openMax T l T') :
    T ⊆ T' ∧ (T' = T ↔ ClosesAgain l.call l.trace) := by
  obtain ⟨c, locals, tr, r⟩ := l
  cases c with
  | copy buffer bufferLen =>
    obtain ⟨x, htr, -⟩ := runs_copy_iff.mp h.any
    have hT : T' = T := by
      rw [h.eq_foldl, htr]
      exact CopyAnswers.foldl_trace fun hmem hfd ↦ (h.not_mem (htr ▸ hmem) hfd).1
    exact ⟨hT ▸ subset_rfl, iff_of_true hT trivial⟩
  | paste id bufferLen =>
    obtain ⟨x, htr, -⟩ := runs_paste_iff.mp h.any
    simp only [] at htr
    subst htr
    rw [PasteAnswers.closesAgain_iff]
    by_cases hfd : x.fd < 0
    · have hT : T' = T := by
        refine h.eq_foldl.trans ?_
        simp [PasteAnswers.trace, hfd, afterCall]
      exact ⟨hT ▸ subset_rfl, iff_of_true hT (Or.inl hfd)⟩
    · have hnonneg := Int32.not_lt.mp hfd
      have hmem := (h.not_mem (show ⟨.openDevice, x.fd⟩ ∈ x.trace id bufferLen locals by
        simp [PasteAnswers.trace]) hnonneg).1
      rw [or_iff_right hfd, h.eq_foldl, PasteAnswers.foldl_trace hnonneg hmem]
      split
      · exact ⟨subset_rfl, iff_of_true rfl ‹_›⟩
      · refine ⟨Finset.subset_insert _ _, iff_of_false ?_ ‹_›⟩
        exact fun heq ↦ hmem (heq ▸ Finset.mem_insert_self _ _)

theorem Uses.neg_of_full {fd : Int32} (hfull : ∀ fd : Int32, 0 ≤ fd → fd.toInt < openMax → fd ∈ T)
    (h : Uses openMax T l T') (hmem : ⟨.openDevice, fd⟩ ∈ l.trace) : fd < 0 := by
  by_contra hfd
  obtain ⟨hfree, hlt⟩ := h.not_mem hmem (Int32.not_lt.mp hfd)
  exact hfree (hfull fd (Int32.not_lt.mp hfd) hlt)

/-! ## Any number of calls -/

section Runs

variable {T₀ : Finset Int32} {h : List (Event (Finset Int32) Performed)}

/-- The table only grows, so it is what it was only if no call changed it. -/
theorem subset_and_eq_iff_of_run (hrun : Run (Uses openMax) T₀ h T) :
    T₀ ⊆ T ∧ (T = T₀ ↔ ∀ e ∈ h, ClosesAgain e.label.call e.label.trace) := by
  induction hrun with
  | nil => simp
  | @snoc h T T' l _ hstep ih =>
    obtain ⟨hsub, hiff⟩ := ih
    obtain ⟨hsub', hiff'⟩ := hstep.subset_and_eq_iff
    refine ⟨hsub.trans hsub', ?_⟩
    rw [List.forall_mem_append, List.forall_mem_singleton, ← hiff, ← hiff']
    constructor
    · rintro rfl
      have heq := Finset.Subset.antisymm hsub' hsub
      exact ⟨heq, heq.symm⟩
    · rintro ⟨rfl, rfl⟩
      rfl

/-- **Descriptors.** After any number of library calls, each of them left the table of the process
as it was exactly when it closed the device again, and the table is what it was in the beginning
exactly when all of them did. -/
theorem descriptors_kept_iff (hrun : Run (Uses openMax) T₀ h T) :
    (∀ e ∈ h, (e.post = e.pre ↔ ClosesAgain e.label.call e.label.trace)) ∧
    (T = T₀ ↔ ∀ e ∈ h, ClosesAgain e.label.call e.label.trace) :=
  ⟨fun _ he ↦ (hrun.reachable_pre he).2.subset_and_eq_iff.2, (subset_and_eq_iff_of_run hrun).2⟩

/-- A paste of entry 100 that is given descriptor 3. -/
def leakingPaste : Performed := ⟨.paste 100 0, zeroLocals, [⟨.openDevice, 3⟩], .pasted (-1) []⟩

theorem uses_leakingPaste : Uses 4 {0, 1, 2} leakingPaste {0, 1, 2, 3} := by
  have hstop : Runs (Files 4) {0, 1, 2, 3}
      (.ret (.pasted (-1) []) : Program KernelCall KernelCall.Answer Result) [] (.pasted (-1) [])
      {0, 1, 2, 3} := .ret _ _
  rw [Uses, leakingPaste, linked_paste]
  refine .call (show Files 4 _ _ _ {0, 1, 2, 3} from ⟨fun _ ↦ by decide, by decide⟩) ?_
  rwa [if_neg (by decide), if_pos (by decide)]

theorem descriptors_kept_iff_leakingPaste :
    (∀ e ∈ [(⟨{0, 1, 2}, leakingPaste, {0, 1, 2, 3}⟩ : Event (Finset Int32) Performed)],
      (e.post = e.pre ↔ ClosesAgain e.label.call e.label.trace)) ∧
    (({0, 1, 2, 3} : Finset Int32) = {0, 1, 2} ↔
      ∀ e ∈ [(⟨{0, 1, 2}, leakingPaste, {0, 1, 2, 3}⟩ : Event (Finset Int32) Performed)],
        ClosesAgain e.label.call e.label.trace) :=
  descriptors_kept_iff (Run.nil.snoc uses_leakingPaste)

/-- A process with room for one more descriptor pastes entry 100. The paste is refused, and from
then on no call can open the device. -/
theorem not_descriptors_kept : Uses 4 {0, 1, 2} leakingPaste {0, 1, 2, 3} ∧
    ({0, 1, 2, 3} : Finset Int32) ≠ {0, 1, 2} ∧
    ∀ l T', Uses 4 {0, 1, 2, 3} l T' → ∀ fd, ⟨.openDevice, fd⟩ ∈ l.trace → fd < 0 := by
  refine ⟨uses_leakingPaste, by decide, fun l T' h fd ↦ h.neg_of_full fun fd hnonneg hlt ↦ ?_⟩
  have hle := Int32.le_iff_toInt_le.mp hnonneg
  have hcases : fd.toInt = (0 : Int32).toInt ∨ fd.toInt = (1 : Int32).toInt ∨
      fd.toInt = (2 : Int32).toInt ∨ fd.toInt = (3 : Int32).toInt := by
    change fd.toInt = 0 ∨ fd.toInt = 1 ∨ fd.toInt = 2 ∨ fd.toInt = 3
    change 0 ≤ fd.toInt at hle
    omega
  simpa only [Int32.toInt_inj, Finset.mem_insert, Finset.mem_singleton] using hcases

end Runs

end MinixClipboard
