import MinixClipboard.Client.Linearizable

/-!
# No library call waits for another

However the others are scheduled, and whatever they have locked, a library call returns after a
fixed number of its own system calls: four for a copy, seven for a paste. And each of these calls is
answered, unless it is the set of a copy and the driver has no memory left. For this it is not
enough to look at the programs. A get that finds an entry of more bytes than a message holds writes
past its message, and what excludes it is that all entries have been stored by copies.
-/

namespace MinixClipboard

open Fallible Program Driver

/-! ## How many calls there are -/

/-- The system calls a library call makes at most. -/
def LibCall.calls : LibCall → ℕ
  | .copy _ _ => 4
  | .paste _ _ => 7

theorem within_program (c : LibCall) (locals : Locals) : Within c.calls (c.program locals) := by
  cases c with
  | copy buffer bufferLen =>
    rw [program_copy]
    exact .ite trivial fun fd ↦ .ite trivial fun pid ret x ↦ trivial
  | paste id bufferLen =>
    rw [program_paste]
    refine fun fd ↦ .ite trivial (.ite trivial fun src ↦ .ite trivial fun pid permitted ↦ ?_)
    exact .ite trivial fun ret ↦ .ite trivial fun got ↦ .ite trivial fun x ↦ trivial

/-- The moves that are system calls of process `p`. -/
def Move.calls (p : Int32) : Move → Bool
  | .sysCall q _ => q == p
  | _ => false

/-- The moves by which process `p` starts a call. -/
def Move.Starts (p : Int32) : Move → Prop
  | .start q _ _ => q = p
  | _ => False

section Moves

variable {ancestor : Int32 → Int32 → Bool} {σ σ' : System} {m : Move}

theorem within_of_moves (hm : σ.Moves ancestor m σ') {p : Int32} (hstarts : ¬m.Starts p) {n : ℕ}
    (hn : ∀ prog, σ.running p = some prog → Within n prog) :
    ∃ n', (m.calls p).toNat + n' ≤ n ∧ ∀ prog, σ'.running p = some prog → Within n' prog := by
  rcases System.cases_of_moves hm with ⟨q, c, locals, rfl, -, hrun⟩ |
    ⟨q, env, op, next, x, rfl, hcall, -, hrun⟩ | ⟨q, rfl, -, hrun⟩ <;> rw [hrun]
  · rw [Function.update_of_ne fun hpq ↦ hstarts hpq.symm]
    exact ⟨n, by simp [Move.calls], hn⟩
  · by_cases hqp : q = p
    · subst hqp
      obtain ⟨n', rfl, hnext⟩ := (hn _ hcall).of_call
      refine ⟨n', by simp [Move.calls, Nat.add_comm], fun prog hprog ↦ ?_⟩
      rw [Function.update_self, Option.some_inj] at hprog
      exact hprog ▸ hnext x
    · rw [Function.update_of_ne fun hpq ↦ hqp hpq.symm]
      exact ⟨n, by simp [Move.calls, hqp], hn⟩
  · refine ⟨n, by simp [Move.calls], fun prog hprog ↦ hn prog ?_⟩
    by_cases hqp : q = p
    · rw [hqp, Function.update_self] at hprog
      cases hprog
    · rwa [Function.update_of_ne fun hpq ↦ hqp hpq.symm] at hprog

end Moves

/-- From the start of a call on, the system calls of its process and those it has left are no more
than the call makes. -/
theorem within_of_run {ancestor : Int32 → Int32 → Bool} {σ₀ σ : System}
    {h : List (Event System Move)} (hrun : Run (System.Moves ancestor) σ₀ h σ) {p : Int32}
    {c : LibCall} {locals : Locals} {k : ℕ} {e : Event System Move} (hk : h[k]? = some e)
    (he : e.label = .start p c locals) (hstarts : ∀ f ∈ h.drop (k + 1), ¬f.label.Starts p) :
    ∃ n, (h.drop (k + 1)).countP (fun f ↦ f.label.calls p) + n ≤ c.calls ∧
      ∀ prog, σ.running p = some prog → Within n prog := by
  induction hrun with
  | nil => simp at hk
  | @snoc h σ σ' m _ hm ih =>
    rcases List.getElem?_concat_eq_some hk with ⟨hlt, hk⟩ | ⟨rfl, rfl⟩
    · rw [List.drop_append_of_le_length (show k + 1 ≤ h.length from hlt)] at hstarts ⊢
      obtain ⟨n, hle, hn⟩ := ih hk fun f hf ↦ hstarts f (List.mem_append_left _ hf)
      obtain ⟨n', hle', hn'⟩ := within_of_moves hm
        (hstarts _ (List.mem_append_right _ List.mem_cons_self)) hn
      refine ⟨n', ?_, hn'⟩
      rw [List.countP_append, List.countP_singleton]
      have hcount : (if m.calls p = true then 1 else 0) = (m.calls p).toNat := by
        cases m.calls p <;> rfl
      rw [hcount]
      omega
    · -- this is where the call is started
      rw [List.drop_eq_nil_of_le (by simp)]
      refine ⟨c.calls, by simp, fun prog hprog ↦ ?_⟩
      obtain rfl : m = .start p c locals := he
      rcases System.cases_of_moves hm with ⟨q, c', locals', hq, -, hrun⟩ |
        ⟨q, env, _, _, _, hq, -⟩ | ⟨q, hq, -⟩
      · cases hq
        rw [hrun, Function.update_self, Option.some_inj] at hprog
        exact hprog ▸ within_program c locals
      · cases hq
      · cases hq

/-! ## That they are answered -/

section Answers

variable {ancestor : Int32 → Int32 → Bool} {addr : Addr} {σ : System} {s : Driver} {env : Env}
  {p : Int32}

theorem exists_handle_set (hI : Inv s) (hmem : s.heap.Succeeds env.choice) (ms : SetMsg)
    (fd : Int32) :
    ∃ x s', handle ancestor env p (.write fd ms.toWrite setSize) s = .ok (x, s') := by
  rw [handle_set]
  rcases doClipboardSet_spec hI (env.copyFrom ms.toWrite).set env.choice with
    ⟨-, hok⟩ | ⟨i, -, -, ⟨b, s', hok, -⟩ | ⟨hfail, -⟩⟩
  · exact ⟨_, _, bind_ok hok _⟩
  · exact ⟨_, _, bind_ok hok _⟩
  · exact absurd hmem hfail

/-- The next system call of a process is answered, whatever the others do. -/
theorem Working.exists_handle (hI : Inv s) (hS : Stored s) (hp : 0 < p)
    {asked : Option (UInt32 × Int32)} {held : Option (List CChar)} (hheld : Holding s.table p held)
    {op : SysCall} {next : op.Answer → Client Result} {ph : Option (Phase LibCall Mishap Result)}
    (h : Working ancestor p asked held (some (.call op next)) ph)
    (hmem : ∀ fd msg, op = .write fd msg setSize → s.heap.Succeeds env.choice) :
    ∃ x s', handle ancestor env p op s = .ok (x, s') := by
  generalize hprog : some (Program.call op next) = prog at h
  cases h with
  | idle => cases hprog
  | pasteOpen id bufferLen locals =>
    cases hprog
    exact ⟨_, _, handle_openDevice⟩
  | pasteQuery id bufferLen locals fd met hid =>
    cases hprog
    exact ⟨_, _, handle_query hid fd locals.mg⟩
  | pasteGetpid | deniedGetpid =>
    cases hprog
    exact ⟨_, _, handle_getpid⟩
  | pasteCheck | deniedCheck =>
    cases hprog
    exact ⟨_, _, handle_checkIfAncestor _⟩
  | pasteLock id bufferLen locals fd src mg met hid =>
    cases hprog
    have hlock := doClipboardLock_eq ⟨p.toUInt32, id, bufferLen⟩ hid s
    rw [handle_lock]
    split at hlock <;> exact ⟨_, _, bind_ok hlock _⟩
  | pasteGet fd mg bytes =>
    cases hprog
    obtain ⟨i, v, hi, -⟩ := hheld
    obtain ⟨huse, rfl, rfl⟩ := slotOf_eq_some_some_iff.mp hi
    obtain ⟨-, hlen, -⟩ := hS i _ (congrArg (Option.map Slot.value) hi)
    obtain ⟨mg', s', hget, -⟩ := handle_get_of_lockedBy ancestor env hI (Int32.le_of_lt hp)
      ⟨huse, rfl⟩ hlen fd mg.zeroed
    exact ⟨_, _, hget⟩
  | pasteClose fd =>
    cases hprog
    exact ⟨_, _, handle_close fd⟩
  | copyOpen =>
    cases hprog
    exact ⟨_, _, handle_openDevice⟩
  | copyGetpid =>
    cases hprog
    exact ⟨_, _, handle_getpid⟩
  | copySet buffer bufferLen locals fd =>
    cases hprog
    exact exists_handle_set hI (hmem _ _ rfl) _ fd
  | copyClose fd =>
    cases hprog
    exact ⟨_, _, handle_close fd⟩
  | returned => cases hprog

/-- **Wait-freedom.** In every run of any number of processes, a process makes at most four system
calls for a copy and seven for a paste, and the next one of each is answered in whatever state the
others have left the driver, unless it is a set and there is no memory. -/
theorem wait_free (place : Place) {h : List (Event System Move)}
    (hrun : Run (System.Moves ancestor) (System.initial place.addr) h σ) :
    (∀ (k : ℕ) (e : Event System Move) (p : Int32) (c : LibCall) (locals : Locals),
      h[k]? = some e → e.label = .start p c locals →
      (∀ f ∈ h.drop (k + 1), ¬f.label.Starts p) →
        (h.drop (k + 1)).countP (fun f ↦ f.label.calls p) ≤ c.calls) ∧
    ∀ (p : Int32) (op : SysCall) (next : op.Answer → Client Result) (env : Env),
      σ.running p = some (.call op next) →
      (∀ fd msg, op = .write fd msg setSize → σ.driver.heap.Succeeds env.choice) →
        ∃ σ', σ.Moves ancestor (.sysCall p env) σ' := by
  refine ⟨fun k e p c locals hk he hstarts ↦ ?_, fun p op next env hcall hmem ↦ ?_⟩
  · obtain ⟨n, hle, -⟩ := within_of_run hrun hk he hstarts
    exact Nat.le_of_add_right_le hle
  · obtain ⟨a, hdepicts⟩ := exists_depicts_of_moves place hrun
    obtain ⟨held, hheld, hwork⟩ := hdepicts.working p
    rw [hcall] at hwork
    obtain ⟨x, s', hstep⟩ := hwork.exists_handle hdepicts.inv hdepicts.stored
      (hdepicts.positive p (by rw [hcall]; simp)) hheld hmem
    exact ⟨_, by rw [System.Moves, System.move, hcall]; simp only [hstep]; rfl⟩

end Answers

/-- Process 7 has its paste answered, while process 1 copies. -/
theorem wait_free_sample : ∃ h σ,
    Run (System.Moves fun a _ ↦ a == 1) (System.initial 4096) h σ ∧
      σ.received 7 = some (1, [65]) ∧
      (∀ (k : ℕ) (e : Event System Move) (p : Int32) (c : LibCall) (locals : Locals),
        h[k]? = some e → e.label = .start p c locals →
        (∀ f ∈ h.drop (k + 1), ¬f.label.Starts p) →
          (h.drop (k + 1)).countP (fun f ↦ f.label.calls p) ≤ c.calls) ∧
      ∀ (p : Int32) (op : SysCall) (next : op.Answer → Client Result) (env : Env),
        σ.running p = some (.call op next) →
        (∀ fd msg, op = .write fd msg setSize → σ.driver.heap.Succeeds env.choice) →
          ∃ σ', σ.Moves (fun a _ ↦ a == 1) (.sysCall p env) σ' := by
  obtain ⟨h, σ, hrun, hreceived⟩ := System.exists_run_overlap
  exact ⟨h, σ, hrun, hreceived, wait_free samplePlace hrun⟩

end MinixClipboard
