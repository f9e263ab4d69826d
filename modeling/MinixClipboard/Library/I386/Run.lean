import MinixClipboard.Library.I386.Machine

/-!
# Running routines

A routine is the list of its lines, labels among them. Control is at a place in this list, which is
what is left of it from there on; a jump goes on behind a label. A call pushes the address it is to
return to, and hands the machine over to whatever is called, which hands it back with the address
that has been popped. What is called may have a state of its own, the world.

The assembler chooses the addresses at which calls return, and so they are arbitrary here.

`Ends` is what is proved of routines: that from here they come to their return, and how they leave
the machine. The simp set runs a routine up to the next jump.
-/

namespace I386

/-- The lines of a routine that calls `F`. Labels are numbers. -/
inductive Line (F : Type)
  | label (l : ℕ)
  | instr (i : Instr)
  | jmp (l : ℕ)
  | jcc (c : Cond) (l : ℕ)
  | call (f : F)
  | ret

instance {F : Type} : Coe Instr (Line F) := ⟨.instr⟩

/-- What is behind a label. -/
def behind {F : Type} (l : ℕ) : List (Line F) → List (Line F)
  | [] => []
  | .label l' :: rest => if l' = l then rest else behind l rest
  | _ :: rest => behind l rest

/-- What a routine may call, with a world `τ`. With more steps it does the same. -/
structure Callees (F τ : Type) where
  call : F → ℕ → Machine → StateT τ Option (UInt32 × Machine)
  call_mono : ∀ {f n n' m w r}, n ≤ n' → call f n m w = some r → call f n' m w = some r

/-- A call returns, and `Q` is true of what it leaves. -/
def Callees.Calls {F τ : Type} (C : Callees F τ) (f : F) (m : Machine) (w : τ)
    (Q : UInt32 → Machine → τ → Prop) : Prop :=
  ∃ n a m' w', C.call f n m w = some ((a, m'), w') ∧ Q a m' w'

theorem Callees.Calls.imp {F τ : Type} {C : Callees F τ} {f : F} {m : Machine} {w : τ}
    {Q Q' : UInt32 → Machine → τ → Prop} (h : C.Calls f m w Q)
    (hQ : ∀ a m' w', Q a m' w' → Q' a m' w') : C.Calls f m w Q' := by
  obtain ⟨n, a, m', w', hcall, hq⟩ := h
  exact ⟨n, a, m', w', hcall, hQ a m' w' hq⟩

/-- A routine in its surroundings. Calls return to places that depend on where they are made, which
is known from what is left then. -/
structure Routine (F τ : Type) extends Callees F τ where
  code : List (Line F)
  site : ℕ → UInt32

namespace Routine

variable {F τ : Type} (R : Routine F τ)

/-- Running what is left of a routine, up to its return, for so many steps. It leaves the address to
return to. -/
def run : ℕ → List (Line F) → Machine → StateT τ Option (UInt32 × Machine)
  | 0, _, _ => failure
  | _ + 1, [], _ => failure
  | n + 1, .label _ :: rest, m => run n rest m
  | n + 1, .instr i :: rest, m => do run n rest (← i.exec m)
  | n + 1, .jmp l :: _, m => run n (behind l R.code) m
  | n + 1, .jcc c l :: rest, m => do
    if ← m.holds c then run n (behind l R.code) m else run n rest m
  | n + 1, .call f :: rest, m => do
    let (a, m') ← R.call f n (m.push (R.site rest.length))
    if a = R.site rest.length then run n rest m' else failure
  | _ + 1, .ret :: _, m => return (m.mem.word m.esp, {m with esp := m.esp + 4})

variable {R} {rest : List (Line F)} {m : Machine} {w : τ} {n n' : ℕ}

theorem run_instr {i : Instr} : R.run (n + 1) (.instr i :: rest) m w
    = (i.exec m).bind fun m' ↦ R.run n rest m' w := by
  rw [run]
  cases i.exec m <;> rfl

theorem run_jcc {c : Cond} {l : ℕ} : R.run (n + 1) (.jcc c l :: rest) m w
    = (m.holds c).bind fun b ↦
      if b then R.run n (behind l R.code) m w else R.run n rest m w := by
  rw [run]
  cases h : m.holds c with
  | none => rfl
  | some b => cases b <;> rfl

theorem run_call {f : F} : R.run (n + 1) (.call f :: rest) m w
    = (R.call f n (m.push (R.site rest.length)) w).bind fun r ↦
      if r.1.1 = R.site rest.length then R.run n rest r.1.2 r.2 else none := by
  rw [run]
  cases h : R.call f n (m.push (R.site rest.length)) w with
  | none => simp only [bind, StateT.bind, h, Option.bind_none]
  | some r =>
    simp only [bind, StateT.bind, h, Option.bind_some]
    split <;> rfl

/-- With more steps it does the same. -/
theorem run_mono {r : (UInt32 × Machine) × τ} (hn : n ≤ n') (h : R.run n rest m w = some r) :
    R.run n' rest m w = some r := by
  induction n generalizing n' rest m w with
  | zero => cases h
  | succ n ih =>
    obtain ⟨n', rfl⟩ : ∃ k, n' = k + 1 := ⟨n' - 1, by omega⟩
    have hn := Nat.le_of_succ_le_succ hn
    match rest, h with
    | .label _ :: rest, h =>
      change R.run n' rest m w = _
      exact ih hn h
    | .jmp l :: _, h =>
      change R.run n' (behind l R.code) m w = _
      exact ih hn h
    | .ret :: _, h => exact h
    | .instr i :: _, h =>
      rw [run_instr, Option.bind_eq_some_iff] at h ⊢
      exact h.imp fun m' h ↦ ⟨h.1, ih hn h.2⟩
    | .jcc c l :: _, h =>
      rw [run_jcc, Option.bind_eq_some_iff] at h ⊢
      refine h.imp fun b h ↦ ⟨h.1, ?_⟩
      cases b with
      | true => exact ih hn h.2
      | false => exact ih hn h.2
    | .call f :: _, h =>
      rw [run_call, Option.bind_eq_some_iff] at h ⊢
      obtain ⟨r', hcall, h⟩ := h
      refine ⟨r', R.call_mono hn hcall, ?_⟩
      split at h
      · rename_i hsite
        rw [if_pos hsite]
        exact ih hn h
      · cases h

variable {Q : UInt32 → Machine → τ → Prop}

variable (R) in
/-- What is left of a routine comes to its return, and `Q` is true of what it leaves. -/
def Ends (rest : List (Line F)) (m : Machine) (w : τ) (Q : UInt32 → Machine → τ → Prop) : Prop :=
  ∃ n a m' w', R.run n rest m w = some ((a, m'), w') ∧ Q a m' w'

/-- However long it is run, it comes to one return. -/
theorem Ends.of_run {a : UInt32} {m' : Machine} {w' : τ} (h : R.Ends rest m w Q)
    (hrun : R.run n rest m w = some ((a, m'), w')) : Q a m' w' := by
  obtain ⟨k, b, m₁, w₁, hrun', hQ⟩ := h
  have hboth := (run_mono (Nat.le_max_left n k) hrun).symm.trans
    (run_mono (Nat.le_max_right n k) hrun')
  simp only [Option.some.injEq, Prod.mk.injEq] at hboth
  obtain ⟨⟨rfl, rfl⟩, rfl⟩ := hboth
  exact hQ

theorem ends_iff : R.Ends rest m w Q ↔
    ∃ n a m' w', R.run (n + 1) rest m w = some ((a, m'), w') ∧ Q a m' w' := by
  constructor
  · rintro ⟨_ | n, a, m', w', h, hQ⟩
    · cases h
    · exact ⟨n, a, m', w', h, hQ⟩
  · rintro ⟨n, h⟩
    exact ⟨n + 1, h⟩

@[simp] theorem ends_label {l : ℕ} : R.Ends (.label l :: rest) m w Q ↔ R.Ends rest m w Q := ends_iff

@[simp] theorem ends_jmp {l : ℕ} : R.Ends (.jmp l :: rest) m w Q ↔
    R.Ends (behind l R.code) m w Q := ends_iff

@[simp] theorem ends_instr {i : Instr} :
    R.Ends (.instr i :: rest) m w Q ↔ ∃ m', i.exec m = some m' ∧ R.Ends rest m' w Q := by
  rw [ends_iff]
  constructor
  · rintro ⟨n, a, m', w', h, hQ⟩
    rw [run_instr, Option.bind_eq_some_iff] at h
    exact h.imp fun m₁ h ↦ ⟨h.1, n, a, m', w', h.2, hQ⟩
  · rintro ⟨m₁, hi, n, a, m', w', h, hQ⟩
    exact ⟨n, a, m', w', by rw [run_instr, hi]; exact h, hQ⟩

@[simp] theorem ends_jcc {c : Cond} {l : ℕ} : R.Ends (.jcc c l :: rest) m w Q ↔
    ∃ b, m.holds c = some b ∧ if b then R.Ends (behind l R.code) m w Q else R.Ends rest m w Q := by
  rw [ends_iff]
  constructor
  · rintro ⟨n, a, m', w', h, hQ⟩
    rw [run_jcc, Option.bind_eq_some_iff] at h
    refine h.imp fun b h ↦ ⟨h.1, ?_⟩
    cases b with
    | true => exact ⟨n, a, m', w', h.2, hQ⟩
    | false => exact ⟨n, a, m', w', h.2, hQ⟩
  · rintro ⟨b, hb, h⟩
    cases b with
    | true => exact h.imp fun n h ↦ by rw [run_jcc, hb]; exact h
    | false => exact h.imp fun n h ↦ by rw [run_jcc, hb]; exact h

theorem ends_call {f : F} (h : R.Calls f (m.push (R.site rest.length)) w fun a m' w' ↦
    a = R.site rest.length ∧ R.Ends rest m' w' Q) : R.Ends (.call f :: rest) m w Q := by
  obtain ⟨n, _, m', w', hcall, rfl, k, a, m₂, w₂, hrun, hQ⟩ := h
  refine ends_iff.mpr ⟨max n k, a, m₂, w₂, ?_, hQ⟩
  rw [run_call, R.call_mono (le_max_left n k) hcall]
  exact (if_pos rfl).trans (run_mono (le_max_right n k) hrun)

@[simp] theorem ends_ret : R.Ends (.ret :: rest) m w Q ↔
    Q (m.mem.word m.esp) {m with esp := m.esp + 4} w := by
  rw [ends_iff]
  constructor
  · rintro ⟨n, a, m', w', h, hQ⟩
    cases h
    exact hQ
  · exact fun hQ ↦ ⟨0, _, _, _, rfl, hQ⟩

theorem ite_ends {p : Prop} [Decidable p] {rest' : List (Line F)} :
    (if p then R.Ends rest m w Q else R.Ends rest' m w Q) ↔
      R.Ends (if p then rest else rest') m w Q := by
  split <;> rfl

end Routine

/-! ## The simp set -/

attribute [simp] Instr.exec Machine.reg Machine.setReg Machine.ea Machine.long Machine.byte
  Machine.setLong Machine.setByte Machine.setHalf Machine.withFlags Machine.noFlags Machine.push
  Machine.holds loc locIdx

@[simp high] theorem toUInt8_setByte (v : UInt32) (b : UInt8) :
    (v &&& 0xffffff00 ||| b.toUInt32).toUInt8 = b := by
  rw [UInt32.toUInt8_or, UInt32.toUInt8_and, UInt8.toUInt8_toUInt32]
  change v.toUInt8 &&& 0 ||| b = b
  rw [UInt8.and_zero, UInt8.zero_or]

@[simp high] theorem toUInt8_setHalf (v : UInt32) (h : UInt16) :
    (v &&& 0xffff0000 ||| h.toUInt32).toUInt8 = h.toUInt8 := by
  rw [UInt32.toUInt8_or, UInt32.toUInt8_and]
  change v.toUInt8 &&& 0 ||| h.toUInt32.toUInt8 = h.toUInt8
  rw [UInt8.and_zero, UInt8.zero_or, UInt16.toUInt8_toUInt32]

@[simp] theorem toUInt8_mod (v : UInt32) : (v % 256).toUInt8 = v.toUInt8 := by
  rw [← UInt32.toUInt32_toUInt8, UInt8.toUInt8_toUInt32]

namespace Flags

variable (d s : UInt32) (x y : UInt8)

@[simp] theorem holds_e_ofSub : (ofSub d s).holds .e = decide (d = s) := by
  rw [holds, ofSub, Bool.eq_iff_iff, beq_iff_eq, decide_eq_true_iff]
  grind

@[simp] theorem holds_ne_ofSub : (ofSub d s).holds .ne = !decide (d = s) :=
  congrArg not (holds_e_ofSub d s)

@[simp] theorem holds_be_ofSub : (ofSub d s).holds .be = decide (d ≤ s) := by
  change (decide (d < s) || (ofSub d s).holds .e) = _
  rw [holds_e_ofSub, Bool.eq_iff_iff, Bool.or_eq_true, decide_eq_true_iff, decide_eq_true_iff,
    decide_eq_true_iff, ← UInt32.toNat_inj, UInt32.lt_iff_toNat_lt, UInt32.le_iff_toNat_le]
  exact Nat.le_iff_lt_or_eq.symm

@[simp] theorem holds_a_ofSub : (ofSub d s).holds .a = decide (s < d) := by
  change (!decide (d < s) && !(ofSub d s).holds .e) = _
  rw [← Bool.not_or]
  change (!(ofSub d s).holds .be) = _
  rw [holds_be_ofSub, ← decide_not]
  exact decide_eq_decide.mpr UInt32.not_le

@[simp] theorem holds_e_ofByteSub : (ofByteSub x y).holds .e = decide (x = y) := by
  rw [holds, ofByteSub, Bool.eq_iff_iff, beq_iff_eq, decide_eq_true_iff]
  grind

@[simp] theorem holds_ne_ofByteSub : (ofByteSub x y).holds .ne = !decide (x = y) :=
  congrArg not (holds_e_ofByteSub x y)

@[simp] theorem holds_be_ofByteSub : (ofByteSub x y).holds .be = decide (x ≤ y) := by
  change (decide (x < y) || (ofByteSub x y).holds .e) = _
  rw [holds_e_ofByteSub, Bool.eq_iff_iff, Bool.or_eq_true, decide_eq_true_iff, decide_eq_true_iff,
    decide_eq_true_iff, ← UInt8.toNat_inj, UInt8.lt_iff_toNat_lt, UInt8.le_iff_toNat_le]
  exact Nat.le_iff_lt_or_eq.symm

@[simp] theorem holds_a_ofByteSub : (ofByteSub x y).holds .a = decide (y < x) := by
  change (!decide (x < y) && !(ofByteSub x y).holds .e) = _
  rw [← Bool.not_or]
  change (!(ofByteSub x y).holds .be) = _
  rw [holds_be_ofByteSub, ← decide_not]
  exact decide_eq_decide.mpr UInt8.not_le

@[simp] theorem cf_ofByteSub : (ofByteSub x y).cf = decide (x < y) := rfl

@[simp] theorem holds_e_ofResult : (ofResult d).holds .e = decide (d = 0) := rfl

@[simp] theorem holds_ne_ofResult : (ofResult d).holds .ne = !decide (d = 0) := rfl

@[simp] theorem holds_s_ofResult : (ofResult d).holds .s = decide (2 ^ 31 ≤ d) := rfl

@[simp] theorem holds_ne_ofByte : (ofByte x).holds .ne = !decide (x = 0) := rfl

end Flags

end I386
