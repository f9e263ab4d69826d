import Mathlib.Data.Set.Function

/-!
# Steps that act on part of a state

A state is looked at through its cells, which `view` reads. `ActsOn` says that a step acts on the
cells of a set alone: wherever these cells are as they are in one given state, and a guard holds,
the step can be taken, leaves always the same in them, and changes no other cell.

Steps that act on disjoint sets can be taken in either order, as long as neither breaks the guard of
the other (`ActsOn.commute`).
-/

section Locality

open Set

variable {S L ι O : Type*} {step : S → L → S → Prop} {view : S → ι → O}

variable (step view) in
/-- From every state that `G` holds of and that agrees with `s` on `F`, the step `l` can be taken,
and what it does on `F` and elsewhere depends on nothing else. -/
def ActsOn (F : Set ι) (G : S → Prop) (l : L) (s : S) : Prop :=
  ∃ post : ι → O, ∀ t, G t → EqOn (view t) (view s) F →
    ∃ t', step t l t' ∧ EqOn (view t') post F ∧ EqOn (view t') (view t) Fᶜ

variable {F₁ F₂ : Set ι} {G₁ G₂ : S → Prop} {l₁ l₂ : L} {s : S}

/-- **Steps on disjoint sets commute.** -/
theorem ActsOn.commute (h₁ : ActsOn step view F₁ G₁ l₁ s) (h₂ : ActsOn step view F₂ G₂ l₂ s)
    (hdisj : ∀ i ∈ F₁, i ∉ F₂) (hG₁ : G₁ s) (hG₂ : G₂ s) (hkeep₁ : ∀ t, step s l₁ t → G₂ t)
    (hkeep₂ : ∀ t, step s l₂ t → G₁ t) :
    ∃ s₁ s₂ s₁₂ s₂₁, step s l₁ s₁ ∧ step s₁ l₂ s₁₂ ∧ step s l₂ s₂ ∧ step s₂ l₁ s₂₁ ∧
      view s₁₂ = view s₂₁ := by
  obtain ⟨post₁, h₁⟩ := h₁
  obtain ⟨post₂, h₂⟩ := h₂
  have hF₁ : F₁ ⊆ F₂ᶜ := hdisj
  have hF₂ : F₂ ⊆ F₁ᶜ := fun i hi₂ hi₁ ↦ hdisj i hi₁ hi₂
  obtain ⟨s₁, hs₁, hpost₁, hframe₁⟩ := h₁ s hG₁ (eqOn_refl _ _)
  obtain ⟨s₂, hs₂, hpost₂, hframe₂⟩ := h₂ s hG₂ (eqOn_refl _ _)
  -- the first step leaves the cells of the second alone, and the other way round
  obtain ⟨s₁₂, hs₁₂, hpost₁₂, hframe₁₂⟩ := h₂ s₁ (hkeep₁ s₁ hs₁) (hframe₁.mono hF₂)
  obtain ⟨s₂₁, hs₂₁, hpost₂₁, hframe₂₁⟩ := h₁ s₂ (hkeep₂ s₂ hs₂) (hframe₂.mono hF₁)
  refine ⟨s₁, s₂, s₁₂, s₂₁, hs₁, hs₁₂, hs₂, hs₂₁, funext fun i ↦ ?_⟩
  by_cases hi₁ : i ∈ F₁
  · calc view s₁₂ i = view s₁ i := hframe₁₂ (hF₁ hi₁)
      _ = post₁ i := hpost₁ hi₁
      _ = view s₂₁ i := (hpost₂₁ hi₁).symm
  by_cases hi₂ : i ∈ F₂
  · calc view s₁₂ i = post₂ i := hpost₁₂ hi₂
      _ = view s₂ i := (hpost₂ hi₂).symm
      _ = view s₂₁ i := (hframe₂₁ (hF₂ hi₂)).symm
  · calc view s₁₂ i = view s₁ i := hframe₁₂ hi₂
      _ = view s i := hframe₁ hi₁
      _ = view s₂ i := (hframe₂ hi₂).symm
      _ = view s₂₁ i := (hframe₂₁ hi₁).symm

end Locality
