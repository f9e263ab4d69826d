import MinixClipboard.Library.Fallible
import MinixClipboard.Library.Program

/-!
# Linked programs and their traces

Two things to do with a program over calls besides running it. It can be linked: every call is
replaced by a program over calls of a lower level that implements it. And it can be asked what it
may do, where nobody says how its calls are answered, but only which answers are possible in a state
and which states they lead to. A run is then told by its trace, the calls it made with their
answers.

Handlers are a special case of possible answers (`runs_of_exec`), and less is possible where more is
known (`Runs.mono`), so what holds of every trace holds of every execution.
-/

namespace Program

/-! ## Linking -/

section Link

variable {Op Op' : Type} {Ans : Op → Type} {Ans' : Op' → Type} {α β : Type}

/-- A program with its calls implemented by programs of a lower level. -/
def link (impl : ∀ op, Program Op' Ans' (Ans op)) : Program Op Ans α → Program Op' Ans' α
  | ret a => ret a
  | call op next => impl op >>= fun x ↦ link impl (next x)

variable {impl : ∀ op, Program Op' Ans' (Ans op)}

@[simp] theorem link_ret (a : α) : link impl (ret a : Program Op Ans α) = ret a := rfl

@[simp] theorem link_call (op : Op) (next : Ans op → Program Op Ans α) :
    link impl (call op next) = impl op >>= fun x ↦ link impl (next x) := rfl

@[simp] theorem link_ite {c : Prop} [Decidable c] (p q : Program Op Ans α) :
    link impl (if c then p else q) = if c then link impl p else link impl q := by
  split <;> rfl

variable {M : Type → Type} [Monad M] [LawfulMonad M]

theorem exec_request (handle : ∀ op, M (Ans op)) (op : Op) :
    exec handle (request op : Program Op Ans (Ans op)) = handle op := bind_pure _

theorem exec_bind (handle : ∀ op, M (Ans op)) (p : Program Op Ans α)
    (f : α → Program Op Ans β) :
    exec handle (p >>= f) = exec handle p >>= fun a ↦ exec handle (f a) := by
  induction p with
  | ret a => rw [ret_bind, exec_ret, pure_bind]
  | call op next ih =>
    rw [call_bind, exec_call, exec_call, bind_assoc]
    exact bind_congr ih

/-- **Linking is handling.** A linked program runs as the program it was made of, with every call
handled by running its implementation. -/
theorem exec_link (handle : ∀ op, M (Ans' op)) (p : Program Op Ans α) :
    exec handle (link impl p) = exec (fun op ↦ exec handle (impl op)) p := by
  induction p with
  | ret a => rfl
  | call op next ih =>
    rw [link_call, exec_bind, exec_call]
    exact bind_congr ih

end Link

/-! ## Traces -/

section Traces

variable {Op : Type} {Ans : Op → Type} {α : Type} {S T : Type*}

/-- A run of a program whose calls may be answered as `R` says: the calls it made with their
answers, what it returned, and the state it left. -/
inductive Runs (R : S → (op : Op) → Ans op → S → Prop) :
    S → Program Op Ans α → List (Σ op, Ans op) → α → S → Prop
  | ret (s : S) (a : α) : Runs R s (ret a) [] a s
  | call {s s' t : S} {op : Op} {x : Ans op} {next : Ans op → Program Op Ans α}
      {tr : List (Σ op, Ans op)} {a : α} :
      R s op x s' → Runs R s' (next x) tr a t → Runs R s (call op next) (⟨op, x⟩ :: tr) a t

variable {R : S → (op : Op) → Ans op → S → Prop} {s t : S} {p : Program Op Ans α}
  {tr : List (Σ op, Ans op)} {a b : α}

theorem runs_ret_iff : Runs R s (Program.ret a) tr b t ↔ tr = [] ∧ b = a ∧ t = s := by
  constructor
  · rintro ⟨⟩
    exact ⟨rfl, rfl, rfl⟩
  · rintro ⟨rfl, rfl, rfl⟩
    exact .ret _ _

theorem runs_call_iff {op : Op} {next : Ans op → Program Op Ans α} :
    Runs R s (Program.call op next) tr a t ↔
      ∃ x s' tr', R s op x s' ∧ Runs R s' (next x) tr' a t ∧ tr = ⟨op, x⟩ :: tr' := by
  constructor
  · rintro ⟨⟩
    exact ⟨_, _, _, ‹_›, ‹_›, rfl⟩
  · rintro ⟨x, s', tr', hop, hnext, rfl⟩
    exact .call hop hnext

theorem runs_ite_ret_iff {c : Prop} [Decidable c] :
    Runs R s (if c then Program.ret b else p) tr a t ↔
      c ∧ tr = [] ∧ a = b ∧ t = s ∨ ¬c ∧ Runs R s p tr a t := by
  by_cases hc : c
  · rw [if_pos hc, runs_ret_iff, and_iff_right hc, or_iff_left fun h ↦ h.1 hc]
  · rw [if_neg hc, and_iff_right hc, or_iff_right fun h ↦ hc h.1]

theorem Runs.head {c : Σ op, Ans op} (h : Runs R s p (c :: tr) a t) : ∃ s', R s c.1 c.2 s' := by
  cases h with
  | call hop _ => exact ⟨_, hop⟩

theorem Runs.mem {c : Σ op, Ans op} (h : Runs R s p tr a t) (hc : c ∈ tr) :
    ∃ u u', R u c.1 c.2 u' := by
  induction h with
  | ret => simp at hc
  | call hop _ ih =>
    rcases List.mem_cons.mp hc with rfl | hc
    · exact ⟨_, _, hop⟩
    · exact ih hc

/-- Less is possible where more is known of the state. -/
theorem Runs.mono {R' : T → (op : Op) → Ans op → T → Prop} (f : S → T)
    (hR : ∀ s op x s', R s op x s' → R' (f s) op x (f s')) (h : Runs R s p tr a t) :
    Runs R' (f s) p tr a (f t) := by
  induction h with
  | ret s a => exact .ret _ _
  | call hop _ ih => exact .call (hR _ _ _ _ hop) ih

/-- Where a call and its answer tell what becomes of the state, the trace tells the last state. -/
theorem Runs.eq_foldl {f : S → (Σ op, Ans op) → S}
    (hR : ∀ s op x s', R s op x s' → s' = f s ⟨op, x⟩) (h : Runs R s p tr a t) :
    t = tr.foldl f s := by
  induction h with
  | ret s a => rfl
  | call hop _ ih => rw [List.foldl_cons, ← hR _ _ _ _ hop, ih]

/-- An execution against a handler has a trace. -/
theorem runs_of_exec {S E : Type} {handle : ∀ op, StateT S (Except E) (Ans op)} {s t : S}
    (h : exec handle p s = .ok (a, t)) :
    ∃ tr, Runs (fun s op x s' ↦ handle op s = .ok (x, s')) s p tr a t := by
  induction p generalizing s with
  | ret b =>
    obtain ⟨rfl, rfl⟩ := Prod.mk.inj (Except.ok.inj h)
    exact ⟨[], .ret _ _⟩
  | call op next ih =>
    obtain ⟨x, s', hop, hnext⟩ := Fallible.of_bind_ok h
    obtain ⟨tr, htr⟩ := ih x hnext
    exact ⟨_, .call hop htr⟩

end Traces

end Program
