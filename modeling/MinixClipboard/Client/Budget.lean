import MinixClipboard.Client.Descriptors
import Mathlib.Data.Finset.Card

/-!
# How many pastes a process can have refused

A paste that opens the device and gives up takes a descriptor from its process for good
(`Client/Descriptors.lean`). So the table of a process is a budget: every such paste costs one of
the descriptors it had to spare, and nothing else a library call does costs or returns any. When the
budget is spent, the library is of no more use to this process, whatever the device does; and not
before.
-/

namespace MinixClipboard

open Program

variable {openMax : ℕ} {T₀ T T' : Finset Int32} {l : Performed}
  {h : List (Event (Finset Int32) Performed)}

/-! ## Telling what a call has cost -/

instance : DecidablePred Refuses
  | ⟨.openDevice, _⟩ => inferInstanceAs (Decidable False)
  | ⟨.close _, _⟩ => inferInstanceAs (Decidable False)
  | ⟨.read _ _ _, x⟩ => inferInstanceAs (Decidable (x.1 < 0))
  | ⟨.write _ _ _, a⟩ => inferInstanceAs (Decidable (a < 0))
  | ⟨.checkAncestor _ _, a⟩ => inferInstanceAs (Decidable (toUint8 a = 0))
  | ⟨.getpid, _⟩ => inferInstanceAs (Decidable False)

/-- An `open` that fails. -/
def failsToOpen : Answered → Bool
  | ⟨.openDevice, fd⟩ => fd < 0
  | _ => false

theorem any_failsToOpen_iff {tr : List Answered} :
    tr.any failsToOpen = true ↔ ∃ fd, ⟨.openDevice, fd⟩ ∈ tr ∧ fd < 0 := by
  rw [List.any_eq_true]
  constructor
  · rintro ⟨⟨op, a⟩, hmem, hfails⟩
    cases op with
    | openDevice => exact ⟨a, hmem, of_decide_eq_true hfails⟩
    | close fd => cases hfails
    | read fd mg size => cases hfails
    | write fd msg size => cases hfails
    | checkAncestor m1i1 m1i2 => cases hfails
    | getpid => cases hfails
  · rintro ⟨fd, hmem, hfd⟩
    exact ⟨_, hmem, decide_eq_true hfd⟩

instance (c : LibCall) (tr : List Answered) : Decidable (ClosesAgain c tr) :=
  match c with
  | .copy _ _ => inferInstanceAs (Decidable True)
  | .paste id _ => decidable_of_iff (tr.any failsToOpen = true ∨
      id.toNat < bufMaxCount ∧ ∀ c ∈ tr, ¬Refuses c) (by rw [any_failsToOpen_iff]; rfl)

/-- The calls that did not close the device again. -/
def gaveUp (h : List (Event (Finset Int32) Performed)) : ℕ :=
  h.countP fun e ↦ ¬ClosesAgain e.label.call e.label.trace

/-! ## The table -/

/-- The descriptors a process can have. -/
def descriptors (openMax : ℕ) : Finset Int32 := (Finset.range openMax).image Int32.ofNat

section Descriptors

variable (hmax : openMax ≤ 2 ^ 31)
include hmax

theorem mem_descriptors_iff {fd : Int32} :
    fd ∈ descriptors openMax ↔ 0 ≤ fd ∧ fd.toInt < openMax := by
  have htoInt : ∀ k < openMax, (Int32.ofNat k).toInt = k := fun k hk ↦
    Int32.toInt_ofNat_of_lt (by omega)
  rw [descriptors, Finset.mem_image]
  constructor
  · rintro ⟨k, hk, rfl⟩
    rw [Finset.mem_range] at hk
    rw [Int32.le_iff_toInt_le, htoInt k hk, Int32.toInt_zero]
    omega
  · rintro ⟨hnonneg, hlt⟩
    rw [Int32.le_iff_toInt_le, Int32.toInt_zero] at hnonneg
    refine ⟨fd.toInt.toNat, Finset.mem_range.mpr (by omega), ?_⟩
    rw [← Int32.toInt_inj, htoInt _ (by omega)]
    omega

theorem card_descriptors : (descriptors openMax).card = openMax := by
  rw [descriptors, Finset.card_image_of_injOn, Finset.card_range]
  intro j hj k hk hjk
  rw [Finset.coe_range, Set.mem_Iio] at hj hk
  have hint := congrArg Int32.toInt hjk
  rw [Int32.toInt_ofNat_of_lt (by omega), Int32.toInt_ofNat_of_lt (by omega)] at hint
  exact_mod_cast hint

end Descriptors

/-- **One call** costs a descriptor that was to spare, unless it closes the device again. -/
theorem Uses.eq_or_insert (h : Uses openMax T l T') :
    ClosesAgain l.call l.trace ∧ T' = T ∨ ¬ClosesAgain l.call l.trace ∧
      ∃ fd, fd ∉ T ∧ 0 ≤ fd ∧ fd.toInt < openMax ∧ T' = insert fd T := by
  by_cases hclose : ClosesAgain l.call l.trace
  · exact Or.inl ⟨hclose, h.subset_and_eq_iff.2.mpr hclose⟩
  refine Or.inr ⟨hclose, ?_⟩
  obtain ⟨c, locals, tr, r⟩ := l
  cases c with
  | copy buffer bufferLen => exact absurd trivial hclose
  | paste id bufferLen =>
    obtain ⟨x, htr, -⟩ := runs_paste_iff.mp h.any
    simp only [] at htr
    subst htr
    rw [PasteAnswers.closesAgain_iff, not_or] at hclose
    have hfd := Int32.not_lt.mp hclose.1
    obtain ⟨hfree, hlt⟩ := h.not_mem (show ⟨.openDevice, x.fd⟩ ∈ x.trace id bufferLen locals by
      simp [PasteAnswers.trace]) hfd
    refine ⟨x.fd, hfree, hfd, hlt, ?_⟩
    rw [h.eq_foldl, PasteAnswers.foldl_trace hfd hfree, if_neg hclose.2]

/-- **A run** costs a descriptor for every call that gave up. -/
theorem card_of_run (hmax : openMax ≤ 2 ^ 31) (hT₀ : T₀ ⊆ descriptors openMax)
    (hrun : Run (Uses openMax) T₀ h T) :
    T ⊆ descriptors openMax ∧ T.card = T₀.card + gaveUp h := by
  induction hrun with
  | nil => exact ⟨hT₀, rfl⟩
  | @snoc h T T' l _ hstep ih =>
    obtain ⟨hT, hcard⟩ := ih
    have hcount : gaveUp (h ++ [⟨T, l, T'⟩])
        = gaveUp h + if ClosesAgain l.call l.trace then 0 else 1 := by
      rw [gaveUp, List.countP_append, List.countP_singleton]
      by_cases hclose : ClosesAgain l.call l.trace <;> simp [hclose, gaveUp]
    rcases hstep.eq_or_insert with ⟨hclose, rfl⟩ | ⟨hclose, fd, hfree, hnonneg, hlt, rfl⟩
    · rw [hcount, if_pos hclose]
      exact ⟨hT, hcard⟩
    · rw [hcount, if_neg hclose, Finset.card_insert_of_notMem hfree, hcard, Nat.add_assoc]
      exact ⟨Finset.insert_subset ((mem_descriptors_iff hmax).mpr ⟨hnonneg, hlt⟩) hT, rfl⟩

/-! ## When it is spent -/

/-- What a call returns that does not get the device. -/
def LibCall.refused : LibCall → Result
  | .copy _ _ => .copied (-1)
  | .paste _ _ => .pasted (-1) []

theorem Uses.result_of_neg (h : Uses openMax T l T')
    (hneg : ∀ fd, ⟨.openDevice, fd⟩ ∈ l.trace → fd < 0) : l.result = l.call.refused ∧ T' = T := by
  obtain ⟨c, locals, tr, r⟩ := l
  cases c with
  | copy buffer bufferLen =>
    obtain ⟨x, htr, hr⟩ := runs_copy_iff.mp h.any
    simp only [] at htr hr hneg
    subst htr
    refine ⟨?_, h.subset_and_eq_iff.2.mpr trivial⟩
    by_cases hlen : bufferLen.toNat > entryLenLimit
    · exact hr.trans (by simp [CopyAnswers.result, hlen, LibCall.refused])
    · have hfd := hneg x.fd (by simp [CopyAnswers.trace, hlen])
      exact hr.trans (by simp [CopyAnswers.result, hfd, LibCall.refused])
  | paste id bufferLen =>
    obtain ⟨x, htr, hr⟩ := runs_paste_iff.mp h.any
    simp only [] at htr hr hneg
    subst htr
    have hfd := hneg x.fd (by simp [PasteAnswers.trace])
    refine ⟨hr.trans (by simp [PasteAnswers.result, hfd, LibCall.refused]), ?_⟩
    exact h.subset_and_eq_iff.2.mpr (PasteAnswers.closesAgain_iff.mpr (Or.inl hfd))

theorem uses_copy {fd : Int32} (hfree : fd ∉ T) (hnonneg : 0 ≤ fd) (hlt : fd.toInt < openMax)
    (buffer : Memory) : Uses openMax T ⟨.copy buffer 0, zeroLocals,
      (⟨fd, 1, 7, 0⟩ : CopyAnswers).trace buffer 0 zeroLocals, .copied 7⟩ T := by
  have hneg := Int32.not_lt.mpr hnonneg
  have hstop : Runs (Files openMax) ((insert fd T).erase fd)
      (.ret (.copied 7) : Program KernelCall KernelCall.Answer Result) [] (.copied 7) T := by
    rw [Finset.erase_insert hfree]
    exact .ret _ _
  rw [Uses, linked_copy, if_neg (by decide), CopyAnswers.trace, if_neg (by decide), if_neg hneg]
  have hopen : Files openMax T .openDevice fd (insert fd T) :=
    ⟨fun _ ↦ ⟨hfree, hlt⟩, (if_neg hneg).symm⟩
  refine .call hopen ?_
  rw [if_neg hneg]
  exact .call ⟨trivial, rfl⟩ (.call ⟨trivial, rfl⟩ (.call ⟨trivial, rfl⟩ hstop))

/-- **The budget.** In any run of library calls, as many descriptors are lost as calls have given up
with the device open, and no more of them do than there were descriptors to spare. When all of these
are gone every further call is refused before it gets the device, and before that none need be. -/
theorem descriptor_budget (hmax : openMax ≤ 2 ^ 31) (hT₀ : T₀ ⊆ descriptors openMax)
    (hrun : Run (Uses openMax) T₀ h T) :
    T.card = T₀.card + gaveUp h ∧ gaveUp h ≤ openMax - T₀.card ∧
    (gaveUp h = openMax - T₀.card ↔
      ∀ l T', Uses openMax T l T' → l.result = l.call.refused ∧ T' = T) := by
  obtain ⟨hT, hcard⟩ := card_of_run hmax hT₀ hrun
  have hle := Finset.card_le_card hT
  have hle₀ := Finset.card_le_card hT₀
  rw [card_descriptors hmax] at hle hle₀
  have hfull : gaveUp h = openMax - T₀.card ↔ T.card = openMax := by omega
  refine ⟨hcard, by omega, hfull.trans ⟨fun hall l T' hl ↦ ?_, fun hrefused ↦ ?_⟩⟩
  · have hT' : T = descriptors openMax :=
      Finset.eq_of_subset_of_card_le hT (by rw [card_descriptors hmax, hall])
    exact hl.result_of_neg fun fd ↦ hl.neg_of_full fun fd hnonneg hlt ↦
      hT' ▸ (mem_descriptors_iff hmax).mpr ⟨hnonneg, hlt⟩
  · -- with a descriptor to spare, a copy could be made
    by_contra hne
    obtain ⟨fd, hfd, hfree⟩ := Finset.exists_mem_notMem_of_card_lt_card
      (show T.card < (descriptors openMax).card by rw [card_descriptors hmax]; omega)
    obtain ⟨hnonneg, hlt⟩ := (mem_descriptors_iff hmax).mp hfd
    have hcopied : Result.copied 7 = .copied (-1) :=
      (hrefused _ _ (uses_copy hfree hnonneg hlt fun _ ↦ 0)).1
    exact absurd hcopied (by decide)

/-- A process with one descriptor to spare has one paste refused. -/
theorem descriptor_budget_leakingPaste : Run (Uses 4) {0, 1, 2}
      [⟨{0, 1, 2}, leakingPaste, {0, 1, 2, 3}⟩] {0, 1, 2, 3} ∧
    ∀ l T', Uses 4 {0, 1, 2, 3} l T' → l.result = l.call.refused ∧ T' = {0, 1, 2, 3} := by
  have hrun : Run (Uses 4) {0, 1, 2} [⟨{0, 1, 2}, leakingPaste, {0, 1, 2, 3}⟩] {0, 1, 2, 3} :=
    Run.nil.snoc uses_leakingPaste
  exact ⟨hrun, (descriptor_budget (by decide) (by decide) hrun).2.2.mp (by decide)⟩

end MinixClipboard
