import Mathlib.Data.List.Forall2
import Mathlib.Data.List.Induction

/-!
# Labelled runs

The vocabulary for everything in this development that takes one step after another. A system is a
relation between a state, a label and a next state; its runs are chronological, the newest event
standing at the end of the history. Every event records the state it was taken in and the state it
left, so that a statement about a run can speak of any moment of it without a second induction.

Three rules carry all later arguments: `Run.invariant_of` takes what one step preserves to what a
run preserves, `Run.event` finds the run behind any event of a history, and `Run.simulate` turns a
step-by-step simulation into a run of the simulating system with the same number of events, whose
histories are then compared index by index.
-/

/-- One step of a run: where it was taken, what it was, what it left. -/
structure Event (S L : Type*) where
  /-- The state before the step. -/
  pre : S
  /-- The step's label. -/
  label : L
  /-- The state after the step. -/
  post : S

theorem List.getElem?_concat_eq_some {α : Type*} {l : List α} {a b : α} {j : ℕ}
    (h : (l ++ [a])[j]? = some b) : j < l.length ∧ l[j]? = some b ∨ j = l.length ∧ a = b := by
  rcases Nat.lt_or_ge j l.length with hlt | hge
  · rw [List.getElem?_append_left hlt] at h
    exact Or.inl ⟨hlt, h⟩
  · rw [List.getElem?_append_right hge, List.getElem?_singleton] at h
    obtain ⟨hj, hab⟩ := Option.ite_none_right_eq_some.mp h
    exact Or.inr ⟨by omega, Option.some_inj.mp hab⟩

theorem List.filterMap_concat {α β : Type*} (f : α → Option β) (l : List α) (a : α) :
    (l ++ [a]).filterMap f = l.filterMap f ++ (f a).toList := by
  rw [List.filterMap_append, List.filterMap_cons]
  cases f a <;> rfl

section Runs

variable {S L : Type*} (step : S → L → S → Prop)

/-- The runs of `step` from `s₀`: a history and the state it leads to. -/
inductive Run (s₀ : S) : List (Event S L) → S → Prop
  | nil : Run s₀ [] s₀
  | snoc {h : List (Event S L)} {s s' : S} {l : L} :
      Run s₀ h s → step s l s' → Run s₀ (h ++ [⟨s, l, s'⟩]) s'

/-- The states some run from `s₀` leads to. -/
def Reachable (s₀ s : S) : Prop := ∃ h, Run step s₀ h s

variable {step} {s₀ s s' : S} {h : List (Event S L)}

theorem Run.reachable (hrun : Run step s₀ h s) : Reachable step s₀ s := ⟨h, hrun⟩

theorem Run.append (hrun : Run step s₀ h s) {h' : List (Event S L)} (hrun' : Run step s h' s') :
    Run step s₀ (h ++ h') s' := by
  induction hrun' with
  | nil => rwa [List.append_nil]
  | snoc _ hs ih =>
    rw [← List.append_assoc]
    exact ih.snoc hs

theorem Reachable.refl : Reachable step s₀ s₀ := ⟨[], .nil⟩

theorem Reachable.next (hs : Reachable step s₀ s) {l : L} (hstep : step s l s') :
    Reachable step s₀ s' := by
  obtain ⟨h, hrun⟩ := hs
  exact ⟨_, hrun.snoc hstep⟩

/-- The invariant rule, for runs whose every event satisfies `Q`. -/
theorem Run.invariant_of {P : S → Prop} {Q : Event S L → Prop} (h₀ : P s₀)
    (hstep : ∀ e : Event S L, P e.pre → Q e → step e.pre e.label e.post → P e.post)
    (hrun : Run step s₀ h s) (hQ : ∀ e ∈ h, Q e) : P s := by
  induction hrun with
  | nil => exact h₀
  | snoc _ hs ih =>
    refine hstep ⟨_, _, _⟩ (ih fun e he ↦ hQ e (List.mem_append_left _ he)) (hQ _ ?_) hs
    exact List.mem_append_right _ List.mem_cons_self

theorem Reachable.invariant {P : S → Prop} (h₀ : P s₀)
    (hstep : ∀ (s : S) (l : L) (s' : S), P s → step s l s' → P s')
    (hs : Reachable step s₀ s) : P s := by
  obtain ⟨h, hrun⟩ := hs
  exact hrun.invariant_of (Q := fun _ ↦ True) h₀ (fun e hP _ he ↦ hstep _ _ _ hP he)
    fun _ _ ↦ trivial

section Decides

variable {I : List (Event S L) → S → Prop} {P : Event S L → Prop}
  {Q : List (Event S L) → Event S L → Prop} (h₀ : I [] s₀)
  (hgood : ∀ h (e : Event S L), I h e.pre → step e.pre e.label e.post → Q h e →
    I (h ++ [e]) e.post ∧ P e)
  (hbad : ∀ h (e : Event S L), I h e.pre → step e.pre e.label e.post → P e → Q h e)

include h₀ hgood hbad in
theorem Run.and_forall_of_forall (hrun : Run step s₀ h s) (hP : ∀ e ∈ h, P e) :
    I h s ∧ ∀ (j : ℕ) (e : Event S L), h[j]? = some e → Q (h.take j) e := by
  induction hrun with
  | nil => exact ⟨h₀, by simp⟩
  | @snoc h s s' l _ hs ih =>
    obtain ⟨hI, hQ⟩ := ih fun e he ↦ hP e (List.mem_append_left _ he)
    have hlast := hbad h ⟨s, l, s'⟩ hI hs (hP _ (List.mem_append_right _ List.mem_cons_self))
    refine ⟨(hgood _ _ hI hs hlast).1, fun j e hj ↦ ?_⟩
    rcases List.getElem?_concat_eq_some hj with ⟨hlt, hj⟩ | ⟨rfl, rfl⟩
    · rw [List.take_append_of_le_length (Nat.le_of_lt hlt)]
      exact hQ j e hj
    · rw [List.take_left]
      exact hlast

include h₀ hgood in
theorem Run.and_forall_of_forall_getElem? (hrun : Run step s₀ h s)
    (hQ : ∀ (j : ℕ) (e : Event S L), h[j]? = some e → Q (h.take j) e) :
    I h s ∧ ∀ e ∈ h, P e := by
  induction hrun with
  | nil => exact ⟨h₀, by simp⟩
  | @snoc h s s' l _ hs ih =>
    have hlast := hQ h.length ⟨s, l, s'⟩ (by simp)
    rw [List.take_left] at hlast
    obtain ⟨hI, hP⟩ := ih fun j e hj ↦ by
      have hlt := (List.getElem?_eq_some_iff.mp hj).1
      have hQj := hQ j e (by rw [List.getElem?_append_left hlt, hj])
      rwa [List.take_append_of_le_length (Nat.le_of_lt hlt)] at hQj
    have hnext := hgood h ⟨s, l, s'⟩ hI hs hlast
    refine ⟨hnext.1, fun e he ↦ ?_⟩
    rcases List.mem_append.mp he with he | he
    · exact hP e he
    · rw [List.mem_singleton.mp he]
      exact hnext.2

include h₀ hgood hbad in
/-- Where an invariant `I` of histories and states decides for every event that `P` holds of it
exactly if `Q` holds of the history before it, it decides so for whole runs, and holds as long as
`P` does. -/
theorem Run.forall_iff (hrun : Run step s₀ h s) :
    ((∀ e ∈ h, P e) ↔ ∀ (j : ℕ) (e : Event S L), h[j]? = some e → Q (h.take j) e) ∧
      ((∀ e ∈ h, P e) → I h s) :=
  ⟨⟨fun hP ↦ (hrun.and_forall_of_forall h₀ hgood hbad hP).2,
    fun hQ ↦ (hrun.and_forall_of_forall_getElem? h₀ hgood hQ).2⟩,
    fun hP ↦ (hrun.and_forall_of_forall h₀ hgood hbad hP).1⟩

end Decides

theorem Run.forall_post_iff {I P : S → Prop} {Q : Event S L → Prop} (h₀ : I s₀)
    (hgood : ∀ e : Event S L, I e.pre → step e.pre e.label e.post → Q e → I e.post ∧ P e.post)
    (hbad : ∀ e : Event S L, I e.pre → step e.pre e.label e.post → P e.post → Q e)
    (hrun : Run step s₀ h s) : (∀ e ∈ h, P e.post) ↔ ∀ e ∈ h, Q e := by
  rw [(hrun.forall_iff (I := fun _ ↦ I) (P := fun e ↦ P e.post) (Q := fun _ ↦ Q) h₀
    (fun _ ↦ hgood) fun _ ↦ hbad).1]
  refine ⟨fun hQ e he ↦ ?_, fun hQ j e hj ↦ hQ e (List.mem_of_getElem? hj)⟩
  obtain ⟨j, hj⟩ := List.mem_iff_getElem?.mp he
  exact hQ j e hj

/-- Every event of a run was a step, taken in the state the events before it lead to. -/
theorem Run.event (hrun : Run step s₀ h s) {j : ℕ} {e : Event S L} (hj : h[j]? = some e) :
    Run step s₀ (h.take j) e.pre ∧ step e.pre e.label e.post := by
  induction hrun with
  | nil => simp at hj
  | @snoc h s s' l hrun hstep ih =>
    rcases List.getElem?_concat_eq_some hj with ⟨hlt, hj⟩ | ⟨rfl, rfl⟩
    · rw [List.take_append_of_le_length (Nat.le_of_lt hlt)]
      exact ih hj
    · rw [List.take_left]
      exact ⟨hrun, hstep⟩

theorem Run.reachable_pre (hrun : Run step s₀ h s) {e : Event S L} (he : e ∈ h) :
    Reachable step s₀ e.pre ∧ step e.pre e.label e.post := by
  obtain ⟨j, hj⟩ := List.mem_iff_getElem?.mp he
  exact ⟨(hrun.event hj).1.reachable, (hrun.event hj).2⟩

/-- The states a history passes through, from `s₀` on. -/
def statesOf (s₀ : S) (h : List (Event S L)) : List S := s₀ :: h.map Event.post

theorem Run.forall_statesOf {P : S → Prop} {Q : Event S L → Prop} (h₀ : P s₀)
    (hstep : ∀ e : Event S L, P e.pre → Q e → step e.pre e.label e.post → P e.post)
    (hrun : Run step s₀ h s) (hQ : ∀ e ∈ h, Q e) : ∀ t ∈ statesOf s₀ h, P t := by
  intro t ht
  rcases List.mem_cons.mp ht with rfl | ht
  · exact h₀
  · obtain ⟨e, he, rfl⟩ := List.mem_map.mp ht
    obtain ⟨j, hj⟩ := List.mem_iff_getElem?.mp he
    obtain ⟨hpre, hs⟩ := hrun.event hj
    have hP := hpre.invariant_of h₀ hstep fun f hf ↦ hQ f (List.mem_of_mem_take hf)
    exact hstep e hP (hQ e he) hs

variable (step) in
theorem Run.of_foldlM {f : S → L → Option S} {Q : Event S L → Prop}
    (hf : ∀ s l s', f s l = some s' → step s l s' ∧ Q ⟨s, l, s'⟩) {ls : List L}
    (hls : ls.foldlM f s₀ = some s) : ∃ h, Run step s₀ h s ∧ ∀ e ∈ h, Q e := by
  induction ls using List.reverseRecOn generalizing s with
  | nil =>
    obtain rfl := Option.some_inj.mp hls
    exact ⟨[], .nil, by simp⟩
  | append_singleton ls l ih =>
    rw [List.foldlM_append, Option.bind_eq_bind, Option.bind_eq_some_iff] at hls
    obtain ⟨s', hls', hs⟩ := hls
    obtain ⟨h, hrun, hQ⟩ := ih hls'
    have hl : f s' l = some s := by simpa using hs
    refine ⟨_, hrun.snoc (hf _ _ _ hl).1, fun e he ↦ ?_⟩
    rcases List.mem_append.mp he with he | he
    · exact hQ e he
    · obtain rfl := List.mem_singleton.mp he
      exact (hf _ _ _ hl).2

end Runs

section Histories

variable {α β : Type*} {R : α → β → Prop} {l : List α} {l' : List β}

theorem List.Forall₂.exists_getElem? (h : List.Forall₂ R l l') {j : ℕ} {a : α}
    (hj : l[j]? = some a) : ∃ b, l'[j]? = some b ∧ R a b := by
  induction h generalizing j with
  | nil => simp at hj
  | cons hab _ ih =>
    cases j with
    | zero =>
      obtain rfl := Option.some_inj.mp hj
      exact ⟨_, rfl, hab⟩
    | succ j => exact ih hj

theorem List.Forall₂.countP_eq (h : List.Forall₂ R l l') {p : α → Bool} {q : β → Bool}
    (hpq : ∀ a b, R a b → p a = q b) : l.countP p = l'.countP q := by
  induction h with
  | nil => rfl
  | cons hab _ ih => rw [List.countP_cons, List.countP_cons, ih, hpq _ _ hab]

end Histories

section Simulation

variable {S L T M : Type*} {step : S → L → S → Prop} {step' : T → M → T → Prop}

def Event.map (f : S → T) (g : L → M) (e : Event S L) : Event T M := ⟨f e.pre, g e.label, f e.post⟩

theorem Run.map (f : S → T) (g : L → M) (hstep : ∀ s l s', step s l s' → step' (f s) (g l) (f s'))
    {s₀ s : S} {h : List (Event S L)} (hrun : Run step s₀ h s) :
    Run step' (f s₀) (h.map (Event.map f g)) (f s) := by
  induction hrun with
  | nil => exact .nil
  | snoc _ hs ih =>
    rw [List.map_append, List.map_singleton]
    exact ih.snoc (hstep _ _ _ hs)

/-- What an event of the simulated system and an event of the simulating one have in common, for an
abstraction function and a relation on labels. -/
structure Event.Matches (abs : S → T) (rel : Event S L → M → Prop) (e : Event S L)
    (e' : Event T M) : Prop where
  pre : e'.pre = abs e.pre
  post : e'.post = abs e.post
  label : rel e e'.label

/-- **The simulation rule.** A step-by-step simulation under an invariant is a simulation of runs,
event by event. -/
theorem Run.simulate (abs : S → T) {rel : Event S L → M → Prop} {I : S → Prop} {s₀ : S} (h₀ : I s₀)
    (hstep : ∀ e : Event S L, I e.pre → step e.pre e.label e.post →
      I e.post ∧ ∃ m, rel e m ∧ step' (abs e.pre) m (abs e.post))
    {h : List (Event S L)} {s : S} (hrun : Run step s₀ h s) :
    I s ∧ ∃ h', Run step' (abs s₀) h' (abs s) ∧ List.Forall₂ (Event.Matches abs rel) h h' := by
  induction hrun with
  | nil => exact ⟨h₀, [], .nil, .nil⟩
  | @snoc h s s' l _ hs ih =>
    obtain ⟨hI, h', hrun', hall⟩ := ih
    obtain ⟨hI', m, hm, hs'⟩ := hstep ⟨s, l, s'⟩ hI hs
    refine ⟨hI', _, hrun'.snoc hs', ?_⟩
    exact List.rel_append hall (.cons ⟨rfl, rfl, hm⟩ .nil)

/-- **The simulation rule for a relation**, where some steps are not to be seen from outside. Every
other step is one of the simulating system, which answers it as `rel` says. -/
theorem Run.simulate_visible {α : Type*} (visible : Event S L → Option α) {R : S → T → Prop}
    {Q : Event S L → Prop} {rel : α → Event T M → Prop} {s₀ : S} {t₀ : T} (h₀ : R s₀ t₀)
    (hstep : ∀ (e : Event S L) (t : T), R e.pre t → Q e → step e.pre e.label e.post →
      visible e = none ∧ R e.post t ∨
        ∃ a m t', visible e = some a ∧ step' t m t' ∧ rel a ⟨t, m, t'⟩ ∧ R e.post t')
    {h : List (Event S L)} {s : S} (hrun : Run step s₀ h s) (hQ : ∀ e ∈ h, Q e) :
    ∃ h' t, Run step' t₀ h' t ∧ List.Forall₂ rel (h.filterMap visible) h' ∧ R s t := by
  induction hrun with
  | nil => exact ⟨[], t₀, .nil, .nil, h₀⟩
  | @snoc h s s' l _ hs ih =>
    obtain ⟨h', t, hrun', hall, hR⟩ := ih fun e he ↦ hQ e (List.mem_append_left _ he)
    have hlast := hQ ⟨s, l, s'⟩ (List.mem_append_right _ List.mem_cons_self)
    rw [List.filterMap_append]
    rcases hstep ⟨s, l, s'⟩ t hR hlast hs with ⟨hv, hR'⟩ | ⟨a, m, t', hv, hs', hrel, hR'⟩
    · rw [List.filterMap_cons_none hv, List.filterMap_nil, List.append_nil]
      exact ⟨h', t, hrun', hall, hR'⟩
    · rw [List.filterMap_cons_some hv, List.filterMap_nil]
      exact ⟨_, t', hrun'.snoc hs', List.rel_append hall (.cons hrel .nil), hR'⟩

/-- **The simulation rule for what is seen from outside.** Where a system is simulated step by step,
by any number of steps for each of its own that together show what it shows, it has no trace the
simulating system does not have. -/
theorem Run.simulate_traces {α : Type*} (visible : Event S L → Option α)
    (visible' : Event T M → Option α) {R : S → T → Prop} {Q : Event S L → Prop} {s₀ : S} {t₀ : T}
    (h₀ : R s₀ t₀)
    (hstep : ∀ (e : Event S L) (t : T), R e.pre t → Q e → step e.pre e.label e.post →
      ∃ h' t', Run step' t h' t' ∧ h'.filterMap visible' = (visible e).toList ∧ R e.post t')
    {h : List (Event S L)} {s : S} (hrun : Run step s₀ h s) (hQ : ∀ e ∈ h, Q e) :
    ∃ h' t, Run step' t₀ h' t ∧ h'.filterMap visible' = h.filterMap visible ∧ R s t := by
  induction hrun with
  | nil => exact ⟨[], t₀, .nil, rfl, h₀⟩
  | @snoc h s s' l _ hs ih =>
    obtain ⟨h', t, hrun', htrace, hR⟩ := ih fun e he ↦ hQ e (List.mem_append_left _ he)
    have hlast := hQ ⟨s, l, s'⟩ (List.mem_append_right _ List.mem_cons_self)
    obtain ⟨g, t', hg, hshown, hR'⟩ := hstep ⟨s, l, s'⟩ t hR hlast hs
    refine ⟨h' ++ g, t', hrun'.append hg, ?_, hR'⟩
    rw [List.filterMap_append, List.filterMap_concat, htrace, hshown]

end Simulation
