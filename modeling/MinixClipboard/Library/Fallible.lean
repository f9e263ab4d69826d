import Mathlib.Logic.Basic

/-!
# Running programs that can fail

The equations by which a program in `StateT σ (Except ε)` is run, one statement after the other. A
program is run by rewriting with `bind_ok` and what is known of its first statement, so that `bind`
and the monad's own layers are never unfolded.
-/

namespace Fallible

variable {σ ε α β : Type} {s s' : σ}

theorem bind_apply (x : StateT σ (Except ε) α) (f : α → StateT σ (Except ε) β) (s : σ) :
    (x >>= f) s = match x s with
      | .ok (a, s') => f a s'
      | .error e => .error e := by
  change (StateT.bind x f) s = _
  simp only [StateT.bind]
  cases x s <;> rfl

theorem bind_ok {x : StateT σ (Except ε) α} {a : α} (hx : x s = .ok (a, s'))
    (f : α → StateT σ (Except ε) β) : (x >>= f) s = f a s' := by
  rw [bind_apply, hx]

theorem bind_error {x : StateT σ (Except ε) α} {e : ε} (hx : x s = .error e)
    (f : α → StateT σ (Except ε) β) : (x >>= f) s = .error e := by
  rw [bind_apply, hx]

/-- What is known of a program that has returned: its first statement has, and so has the rest. -/
theorem of_bind_ok {x : StateT σ (Except ε) α} {f : α → StateT σ (Except ε) β} {b : β}
    (h : (x >>= f) s = .ok (b, s')) : ∃ a t, x s = .ok (a, t) ∧ f a t = .ok (b, s') := by
  rw [bind_apply] at h
  cases hx : x s with
  | error e => rw [hx] at h; simp at h
  | ok p => rw [hx] at h; exact ⟨p.1, p.2, rfl, h⟩

theorem pure_apply (a : α) (s : σ) : (pure a : StateT σ (Except ε) α) s = .ok (a, s) := rfl

theorem get_apply (s : σ) : (get : StateT σ (Except ε) σ) s = .ok (s, s) := rfl

theorem modify_apply (f : σ → σ) (s : σ) :
    (modify f : StateT σ (Except ε) Unit) s = .ok ((), f s) := rfl

theorem throw_apply (e : ε) (s : σ) : (throw e : StateT σ (Except ε) α) s = .error e := rfl

theorem lift_apply (x : Except ε α) (s : σ) :
    (liftM x : StateT σ (Except ε) α) s = match x with
      | .ok a => .ok (a, s)
      | .error e => .error e := by
  cases x <;> rfl

theorem of_lift_ok {x : Except ε α} {a : α}
    (h : (liftM x : StateT σ (Except ε) α) s = .ok (a, s')) : x = .ok a ∧ s = s' := by
  rw [lift_apply] at h
  cases x with
  | error e => cases h
  | ok b =>
    rw [Except.ok.injEq, Prod.mk.injEq] at h
    exact ⟨congrArg Except.ok h.1, h.2⟩

theorem of_pure_ok {a x : α} (h : (pure a : StateT σ (Except ε) α) s = .ok (x, s')) :
    a = x ∧ s = s' := by
  rw [pure_apply, Except.ok.injEq, Prod.mk.injEq] at h
  exact h

theorem bind_pure_ok_iff {x : StateT σ (Except ε) α} {f : α → β} {b : β} :
    (x >>= fun a ↦ pure (f a)) s = .ok (b, s') ↔ ∃ a, x s = .ok (a, s') ∧ f a = b := by
  rw [bind_apply]
  cases hx : x s with
  | error e => simp
  | ok p =>
    obtain ⟨a, t⟩ := p
    simp only [pure_apply, Except.ok.injEq, Prod.mk.injEq]
    constructor
    · rintro ⟨rfl, rfl⟩
      exact ⟨a, ⟨rfl, rfl⟩, rfl⟩
    · rintro ⟨a', ⟨rfl, rfl⟩, rfl⟩
      exact ⟨rfl, rfl⟩

end Fallible
