import Mathlib.Logic.Function.Basic

/-!
# Programs that make calls

A program is what is left to do: it has returned, or it makes a call and goes on with the answer.
The calls and the types of their answers are arbitrary. A program says nothing about who answers,
and this is what it is for: the same program is run to its end against one handler (`exec`), or one
call at a time in between the calls of others.
-/

/-- Programs over calls `Op`, answered in `Ans`, that return an `α`. -/
inductive Program (Op : Type) (Ans : Op → Type) (α : Type)
  /-- The program has returned. -/
  | ret (a : α)
  /-- The program makes a call and goes on with its answer. -/
  | call (op : Op) (next : Ans op → Program Op Ans α)

namespace Program

variable {Op : Type} {Ans : Op → Type} {α β : Type}

/-- Going on with what a program returns. -/
def bind : Program Op Ans α → (α → Program Op Ans β) → Program Op Ans β
  | ret a, f => f a
  | call op next, f => call op fun x ↦ (next x).bind f

instance : Monad (Program Op Ans) where
  pure := ret
  bind := bind

/-- The program that makes one call. -/
def request (op : Op) : Program Op Ans (Ans op) := call op ret

@[simp] theorem ret_bind (a : α) (f : α → Program Op Ans β) : (ret a >>= f) = f a := rfl

@[simp] theorem pure_eq_ret (a : α) : (pure a : Program Op Ans α) = ret a := rfl

@[simp] theorem call_bind (op : Op) (next : Ans op → Program Op Ans α)
    (f : α → Program Op Ans β) : (call op next >>= f) = call op fun x ↦ next x >>= f := rfl

@[simp] theorem request_bind (op : Op) (f : Ans op → Program Op Ans β) :
    (request op >>= f) = call op f := rfl

@[simp] theorem ite_bind {c : Prop} [Decidable c] (p q : Program Op Ans α)
    (f : α → Program Op Ans β) :
    ((if c then p else q) >>= f) = if c then p >>= f else q >>= f := by
  split <;> rfl

/-- A program that makes at most `n` calls, however they are answered. -/
def Within : Nat → Program Op Ans α → Prop
  | _, ret _ => True
  | 0, call _ _ => False
  | n + 1, call _ next => ∀ x, Within n (next x)

theorem Within.of_call {n : Nat} {op : Op} {next : Ans op → Program Op Ans α}
    (h : Within n (call op next)) : ∃ m, n = m + 1 ∧ ∀ x, Within m (next x) := by
  cases n with
  | zero => exact h.elim
  | succ m => exact ⟨m, rfl, h⟩

theorem Within.ite {n : Nat} {c : Prop} [Decidable c] {p q : Program Op Ans α} (hp : Within n p)
    (hq : Within n q) : Within n (if c then p else q) := by
  split
  · exact hp
  · exact hq

/-- No call that needs something is made before an answer that brings it. -/
def Guarded (needs : Op → Prop) (brings : (op : Op) → Ans op → Prop) : Program Op Ans α → Prop
  | ret _ => True
  | call op next => ¬needs op ∧ ∀ x, ¬brings op x → Guarded needs brings (next x)

variable {M : Type → Type} [Monad M]

/-- Running a program to its end, every call answered by one handler. -/
def exec (handle : ∀ op, M (Ans op)) : Program Op Ans α → M α
  | ret a => pure a
  | call op next => do exec handle (next (← handle op))

@[simp] theorem exec_ret (handle : ∀ op, M (Ans op)) (a : α) :
    exec handle (ret a : Program Op Ans α) = pure a := rfl

@[simp] theorem exec_call (handle : ∀ op, M (Ans op)) (op : Op)
    (next : Ans op → Program Op Ans α) :
    exec handle (call op next) = handle op >>= fun x ↦ exec handle (next x) := rfl

/-- Two handlers run a program alike if they answer its first call alike, and run alike what is left
of it. -/
theorem exec_call_congr {handle handle' : ∀ op, M (Ans op)} {op : Op}
    {next : Ans op → Program Op Ans α} (hop : handle op = handle' op)
    (hnext : ∀ x, exec handle (next x) = exec handle' (next x)) :
    exec handle (call op next) = exec handle' (call op next) := by
  rw [exec_call, exec_call, hop]
  exact bind_congr hnext

end Program
