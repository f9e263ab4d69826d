import Mathlib.Data.Fin.Tuple.Basic
import Mathlib.Tactic.Ring

/-!
# How values lie in memory

A layout of a type says how many cells its values take, what they look like in memory, and how they
are read back; that they are read back as they were written is part of the layout. Layouts of
structures and arrays are put together from those of their members, in memory order, so that no
round trip has to be proved for them.

Reading is total: a layout gives some value to every list of cells. `Layout.overlay` is what becomes
of a value when its first cells are overwritten from outside, with its own layout or not.
-/

/-- A layout of the values of `α` in cells `B`. -/
structure Layout (B α : Type*) where
  /-- The number of cells. -/
  size : ℕ
  write : α → List B
  read : List B → α
  length_write : ∀ a, (write a).length = size
  read_write : ∀ a, read (write a) = a

namespace Layout

variable {B α β : Type*}

/-! ## Putting layouts together -/

/-- No cells. -/
def unit : Layout B Unit where
  size := 0
  write _ := []
  read _ := ()
  length_write _ := rfl
  read_write _ := rfl

/-- Cells that hold nothing, and are not read. -/
def padding (n : ℕ) (junk : B) : Layout B Unit where
  size := n
  write _ := List.replicate n junk
  read _ := ()
  length_write _ := List.length_replicate
  read_write _ := rfl

def prod (L : Layout B α) (M : Layout B β) : Layout B (α × β) where
  size := L.size + M.size
  write p := L.write p.1 ++ M.write p.2
  read bs := (L.read (bs.take L.size), M.read (bs.drop L.size))
  length_write p := by rw [List.length_append, L.length_write, M.length_write]
  read_write p := by
    rw [List.take_left' (L.length_write p.1), List.drop_left' (L.length_write p.1), L.read_write,
      M.read_write]

/-- The layout of a type whose values are told by their members. -/
def map (L : Layout B α) (f : β → α) (g : α → β) (hgf : ∀ b, g (f b) = b) : Layout B β where
  size := L.size
  write b := L.write (f b)
  read bs := g (L.read bs)
  length_write b := L.length_write (f b)
  read_write b := by rw [L.read_write, hgf]

def array (L : Layout B α) : (n : ℕ) → Layout B (Fin n → α)
  | 0 => unit.map (fun _ ↦ ()) (fun _ ↦ Fin.elim0) fun _ ↦ funext fun i ↦ i.elim0
  | n + 1 => (L.prod (array L n)).map (fun a ↦ (a 0, Fin.tail a)) (fun p ↦ Fin.cons p.1 p.2)
      fun a ↦ Fin.cons_self_tail a

@[simp] theorem size_padding (n : ℕ) (junk : B) : (padding n junk).size = n := rfl

@[simp] theorem size_prod (L : Layout B α) (M : Layout B β) :
    (L.prod M).size = L.size + M.size := rfl

@[simp] theorem size_map (L : Layout B α) (f : β → α) (g : α → β) (hgf : ∀ b, g (f b) = b) :
    (L.map f g hgf).size = L.size := rfl

@[simp] theorem size_array (L : Layout B α) (n : ℕ) : (L.array n).size = n * L.size := by
  induction n with
  | zero => exact (Nat.zero_mul _).symm
  | succ n ih =>
    rw [array, size_map, size_prod, ih]
    ring

/-! ## Overwriting a value -/

variable (L : Layout B α)

/-- What a value becomes when these cells are written over its first ones. -/
def overlay (a : α) (bs : List B) : α := L.read (bs ++ (L.write a).drop bs.length)

@[simp] theorem overlay_write (a b : α) : L.overlay a (L.write b) = b := by
  rw [overlay, L.length_write, ← L.length_write a, List.drop_length, List.append_nil, L.read_write]

/-! ## Numbers -/

/-- The `k` digits of a number to the base `b`, lowest first. -/
def digitsOf (digit : ℕ → B) (b : ℕ) : ℕ → ℕ → List B
  | 0, _ => []
  | k + 1, n => digit (n % b) :: digitsOf digit b k (n / b)

/-- The number with these digits. -/
def ofDigits (value : B → ℕ) (b : ℕ) : List B → ℕ
  | [] => 0
  | d :: ds => value d + b * ofDigits value b ds

theorem length_digitsOf (digit : ℕ → B) (b k n : ℕ) : (digitsOf digit b k n).length = k := by
  induction k generalizing n with
  | zero => rfl
  | succ k ih => rw [digitsOf, List.length_cons, ih]

theorem ofDigits_digitsOf {digit : ℕ → B} {value : B → ℕ} {b : ℕ} (hb : 0 < b)
    (hdigit : ∀ d < b, value (digit d) = d) (k n : ℕ) :
    ofDigits value b (digitsOf digit b k n) = n % b ^ k := by
  induction k generalizing n with
  | zero => rw [pow_zero, Nat.mod_one]; rfl
  | succ k ih =>
    rw [digitsOf, ofDigits, ih, hdigit _ (Nat.mod_lt _ hb), pow_succ', Nat.mod_mul]

end Layout
