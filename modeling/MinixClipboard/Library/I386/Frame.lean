import MinixClipboard.Library.I386.Memory
import MinixClipboard.Library.I386.Run

/-!
# Stack frames and calls

By the convention of C the caller pushes the arguments, the last one first, and the address to
return to; the function keeps `ebx`, `esi`, `edi`, `ebp` and pops the address (`Returned`). It may
use the stack below, and the places of its arguments are its own.

Compiled functions push the registers they have to keep, one after the other, and take their frame
from the stack below. When they are done they undo this. What lies between is proved to leave the
saved registers alone (`Saved`), and `Saved.ends_leave` is the end of the proof.
-/

namespace I386

open Mem Reg Instr

variable {m m₀ m' : Machine} {mem mem' : Mem} {a p f s x : UInt32} {above below : ℕ}

/-! ## Apart from a stack -/

/-- An address that is neither in the `above` bytes of the stack from `p` on nor in the `below`
bytes that are next to be pushed. -/
def Apart (p : UInt32) (above below : ℕ) (x : UInt32) : Prop :=
  above ≤ ofs p x ∧ ofs p x + below < 2 ^ 32

theorem Apart.le_ofs (h : Apart p above below x) (hp : ofs f p = below) :
    above + below ≤ ofs f x := by
  have hcases := ofs_eq f p x
  obtain ⟨habove, hbelow⟩ := h
  omega

theorem apart_of_ofs (hp : above ≤ ofs p f) (h : ofs f x + (ofs p f + below) < 2 ^ 32) :
    Apart p above below x := by
  have hcases := ofs_eq p f x
  have hlt := ofs_lt p x
  exact ⟨by omega, by omega⟩

theorem Apart.mono {above' below' : ℕ} (h : Apart p above below x) (habove : above' ≤ above)
    (hbelow : below' ≤ below) : Apart p above' below' x :=
  ⟨habove.trans h.1, (Nat.add_le_add_left hbelow _).trans_lt h.2⟩

theorem apart_of_ofs_lt {n : ℕ} (habove : above ≤ ofs p a) (hbelow : ofs p a + n + below ≤ 2 ^ 32)
    (hx : ofs a x < n) : Apart p above below x := by
  have hcases := ofs_eq p a x
  have hlt := ofs_lt p x
  exact ⟨by omega, by omega⟩

/-! ## Arguments -/

/-- The memory when double words have been pushed, the first one last, to the address `a`. -/
def pushed (mem : Mem) (a : UInt32) : List UInt32 → Mem
  | [] => mem
  | v :: vs => (pushed mem (a + 4) vs).setWord a v

theorem pushed_of_le {vs : List UInt32} (h : 4 * vs.length ≤ ofs a x) :
    pushed mem a vs x = mem x := by
  induction vs generalizing a with
  | nil => rfl
  | cons v vs ih =>
    rw [List.length_cons] at h
    have hcases := ofs_eq a (a + 4) x
    simp at hcases
    rw [pushed, setWord_of_le (by omega), ih (by omega)]

theorem word_pushed {vs : List UInt32} {v : UInt32} {i : ℕ} (hlen : 4 * vs.length ≤ 2 ^ 32)
    (hv : vs[i]? = some v) : (pushed mem a vs).word (a + UInt32.ofNat (4 * i)) = v := by
  induction vs generalizing a i with
  | nil => cases hv
  | cons u vs ih =>
    rw [List.length_cons] at hlen
    cases i with
    | zero =>
      obtain rfl : u = v := Option.some.inj hv
      exact (congrArg _ (UInt32.add_zero a)).trans word_setWord_self
    | succ i =>
      have hi : i < vs.length :=
        Nat.lt_of_succ_lt_succ (List.getElem?_eq_some_iff.mp hv).1
      have hword : (UInt32.ofNat (4 * (i + 1))).toNat = 4 * (i + 1) :=
        UInt32.toNat_ofNat_of_lt' (show 4 * (i + 1) < 2 ^ 32 by omega)
      have hne : UInt32.ofNat (4 * (i + 1)) ≠ 0 := fun hzero ↦ by
        rw [hzero] at hword
        cases hword
      rw [pushed, word_setWord_of_ofs, ← ih (by omega) hv (a := a + 4), UInt32.add_assoc]
      · congr 2
        rw [Nat.mul_succ, Nat.add_comm, UInt32.ofNat_add]
        rfl
      · rw [ofs_add_self, ofs_add_left a hne, hword]
        omega

/-! ## Saved registers -/

/-- The registers that functions keep are where they have been pushed, from `s` on, under the
address to return to. -/
structure Saved (m₀ : Machine) (s : UInt32) (mem : Mem) : Prop where
  esp : m₀.esp = s + 16
  ebx : mem.word s = m₀.ebx
  esi : mem.word (s + 4) = m₀.esi
  edi : mem.word (s + 8) = m₀.edi
  ebp : mem.word (s + 12) = m₀.ebp
  ret : mem.word (s + 16) = m₀.mem.word m₀.esp

theorem Saved.congr (h : Saved m₀ s mem) (hsame : ∀ x, ofs s x < 20 → mem' x = mem x) :
    Saved m₀ s mem' := by
  have hword : ∀ d : UInt32, d.toNat ≤ 16 → mem'.word (s + d) = mem.word (s + d) := fun d hd ↦
    word_congr fun x hx ↦ hsame x (by
      have hcases := ofs_eq s (s + d) x
      rw [ofs_add_self] at hcases
      omega)
  refine ⟨h.esp, ?_, (hword 4 (by decide)).trans h.esi, (hword 8 (by decide)).trans h.edi,
    (hword 12 (by decide)).trans h.ebp, (hword 16 (by decide)).trans h.ret⟩
  have hebx := hword 0 (by decide)
  rw [UInt32.add_zero] at hebx
  exact hebx.trans h.ebx

/-- The memory once the registers are pushed. -/
def saving (m : Machine) (s : UInt32) : Mem :=
  (((m.mem.setWord (s + 12) m.ebp).setWord (s + 8) m.edi).setWord (s + 4) m.esi).setWord s m.ebx

theorem saving_of_le (h : 16 ≤ ofs s x) : saving m s x = m.mem x := by
  have hle : ∀ d : UInt32, d.toNat ≤ 12 → 4 ≤ ofs (s + d) x := fun d hd ↦ by
    have hcases := ofs_eq s (s + d) x
    have hlt := ofs_lt s x
    rw [ofs_add_self] at hcases
    omega
  rw [saving, setWord_of_le (by omega), setWord_of_le (hle 4 (by decide)),
    setWord_of_le (hle 8 (by decide)), setWord_of_le (hle 12 (by decide))]

theorem saved_saving (hesp : m.esp = s + 16) : Saved m s (saving m s) := by
  refine ⟨hesp, word_setWord_self, ?_, ?_, ?_, ?_⟩
  · simp [saving, word_setWord_of_ofs]
  · simp [saving, word_setWord_of_ofs]
  · simp [saving, word_setWord_of_ofs]
  · simp [saving, word_setWord_of_ofs, hesp]

theorem word_saving {d : UInt32} (hesp : m.esp = s + 16) (hd : d.toNat < 1024) :
    (saving m s).word (s + 16 + d) = m.mem.word (m.esp + d) := by
  rw [hesp]
  refine word_congr fun x hx ↦ saving_of_le ?_
  have hcases := ofs_eq s (s + 16 + d) x
  have hofs : ofs s (s + 16 + d) = 16 + d.toNat := by
    rw [ofs_add, ofs_add_self]
    exact Nat.mod_eq_of_lt (by simp; omega)
  omega

theorem chars_saving {l : List Int8} (hl : m.mem.Chars a l)
    (hapart : ∀ x, ofs a x < l.length → 16 ≤ ofs s x) : (saving m s).Chars a l :=
  hl.congr fun x hx ↦ saving_of_le (hapart x hx)

/-! ## Returning -/

/-- What a function of C hands back, with the address `a` it returns to. -/
structure Returned (m₀ : Machine) (a : UInt32) (m : Machine) : Prop where
  ret : a = m₀.mem.word m₀.esp
  esp : m.esp = m₀.esp + 4
  ebx : m.ebx = m₀.ebx
  esi : m.esi = m₀.esi
  edi : m.edi = m₀.edi
  ebp : m.ebp = m₀.ebp

variable {F τ : Type} {R : Routine F τ} {w : τ} {Q : UInt32 → Machine → τ → Prop}
  {rest : List (Line F)}

/-- Taking back a frame of `d` bytes and restoring what has been saved above it. -/
def leave (d : UInt32) : List (Line F) :=
  [addl (.imm d) esp, popl ebx, popl esi, popl edi, popl ebp, .ret]

theorem Saved.ends_leave {d : UInt32} (h : Saved m₀ s m.mem) (hesp : m.esp + d = s)
    (hQ : ∀ a m', Returned m₀ a m' → m'.eax = m.eax → m'.mem = m.mem → Q a m' w) :
    R.Ends (leave d ++ rest) m w Q := by
  simp [leave, hesp]
  refine hQ _ _ ⟨?_, ?_, h.ebx, ?_, ?_, ?_⟩ rfl rfl
  · simpa [UInt32.add_assoc] using h.ret
  · simp [h.esp, UInt32.add_assoc]
  · exact h.esi
  · simpa [UInt32.add_assoc] using h.edi
  · simpa [UInt32.add_assoc] using h.ebp

theorem Routine.ends_call_of_returned {f : F}
    (h : R.Calls f (m.push (R.site rest.length)) w fun a m' w' ↦
      Returned (m.push (R.site rest.length)) a m' ∧ R.Ends rest m' w' Q) :
    R.Ends (.call f :: rest) m w Q := by
  refine Routine.ends_call ?_
  obtain ⟨n, a, m', w', hcall, hret, hends⟩ := h
  refine ⟨n, a, m', w', hcall, ?_, hends⟩
  rw [hret.ret]
  exact word_setWord_self

theorem Routine.ends_call_of_returned_at {f : F}
    (h : ∀ s, R.Calls f (m.push s) w fun a m' w' ↦
      Returned (m.push s) a m' ∧ R.Ends rest m' w' Q) : R.Ends (.call f :: rest) m w Q :=
  Routine.ends_call_of_returned (h _)

end I386
