import Mathlib.Data.List.Basic

/-!
# The runs of a list

A list falls into its maximal runs of equal elements. `runs` finds them in one pass, with the run it
is in as its state; `expand` puts a list of runs together again, whether or not they are the runs of
anything.

What it finds are the maximal runs of the list, and no others are (`runs_eq_iff`).

Changing the lengths of runs before expanding them is how a lossy decoder acts. `expand_map_eq_iff`
says when it loses nothing, and `exists_mem_runs_iff` what it means for the list that one of its
runs is long.
-/

namespace Runs

variable {α : Type*}

/-- The list with these runs. -/
def expand (rs : List (α × ℕ)) : List α := rs.flatMap fun r ↦ List.replicate r.2 r.1

@[simp] theorem expand_nil : expand ([] : List (α × ℕ)) = [] := rfl

@[simp] theorem expand_cons (r : α × ℕ) (rs : List (α × ℕ)) :
    expand (r :: rs) = List.replicate r.2 r.1 ++ expand rs := rfl

theorem expand_append (rs rs' : List (α × ℕ)) : expand (rs ++ rs') = expand rs ++ expand rs' :=
  List.flatMap_append

/-! ## Changing the lengths -/

theorem length_expand_map_le {f : ℕ → ℕ} {rs : List (α × ℕ)} (hf : ∀ r ∈ rs, f r.2 ≤ r.2) :
    (expand (rs.map (Prod.map id f))).length ≤ (expand rs).length := by
  induction rs with
  | nil => exact Nat.le_refl _
  | cons r rs ih =>
    rw [List.forall_mem_cons] at hf
    rw [List.map_cons, expand_cons, expand_cons, List.length_append, List.length_append,
      List.length_replicate, List.length_replicate]
    exact Nat.add_le_add hf.1 (ih hf.2)

theorem length_expand_map_eq_iff {f : ℕ → ℕ} {rs : List (α × ℕ)} (hf : ∀ r ∈ rs, f r.2 ≤ r.2) :
    (expand (rs.map (Prod.map id f))).length = (expand rs).length ↔ ∀ r ∈ rs, f r.2 = r.2 := by
  induction rs with
  | nil => simp
  | cons r rs ih =>
    rw [List.forall_mem_cons] at hf
    have hle := length_expand_map_le hf.2
    have hr := hf.1
    rw [List.forall_mem_cons, ← ih hf.2, List.map_cons, expand_cons, expand_cons,
      List.length_append, List.length_append, List.length_replicate, List.length_replicate,
      Prod.map_snd]
    omega

theorem expand_map_eq_iff {f : ℕ → ℕ} {rs : List (α × ℕ)} (hf : ∀ r ∈ rs, f r.2 ≤ r.2) :
    expand (rs.map (Prod.map id f)) = expand rs ↔ ∀ r ∈ rs, f r.2 = r.2 := by
  constructor
  · intro h
    exact (length_expand_map_eq_iff hf).mp (congrArg List.length h)
  · intro h
    have hmap : rs.map (Prod.map id f) = rs.map id :=
      List.map_congr_left fun r hr ↦ Prod.ext rfl (h r hr)
    rw [hmap, List.map_id]

/-! ## Finding the runs -/

variable [DecidableEq α]

/-- The runs of a list behind `n` times `c`. -/
def runsFrom (c : α) (n : ℕ) : List α → List (α × ℕ)
  | [] => [(c, n)]
  | d :: ds => if d = c then runsFrom c (n + 1) ds else (c, n) :: runsFrom d 1 ds

/-- The runs of a list. -/
def runs : List α → List (α × ℕ)
  | [] => []
  | c :: cs => runsFrom c 1 cs

theorem expand_runsFrom (c : α) (n : ℕ) (l : List α) :
    expand (runsFrom c n l) = List.replicate n c ++ l := by
  induction l generalizing c n with
  | nil => rw [runsFrom, expand_cons, expand_nil]
  | cons d ds ih =>
    rw [runsFrom]
    split
    · rename_i hdc
      rw [ih, hdc, List.replicate_succ', List.append_assoc, List.singleton_append]
    · rw [expand_cons, ih, List.replicate_one, List.singleton_append]

@[simp] theorem expand_runs (l : List α) : expand (runs l) = l := by
  cases l with
  | nil => rfl
  | cons c cs => rw [runs, expand_runsFrom, List.replicate_one, List.singleton_append]

theorem pos_of_mem_runsFrom {c : α} {n : ℕ} {l : List α} (hn : 0 < n) {r : α × ℕ}
    (hr : r ∈ runsFrom c n l) : 0 < r.2 := by
  induction l generalizing c n with
  | nil =>
    rw [runsFrom, List.mem_singleton] at hr
    rwa [hr]
  | cons d ds ih =>
    rw [runsFrom] at hr
    split at hr
    · exact ih (Nat.succ_pos n) hr
    · rcases List.mem_cons.mp hr with rfl | hr
      · exact hn
      · exact ih Nat.one_pos hr

theorem pos_of_mem_runs {l : List α} {r : α × ℕ} (hr : r ∈ runs l) : 0 < r.2 := by
  cases l with
  | nil => cases hr
  | cons c cs => exact pos_of_mem_runsFrom Nat.one_pos hr

theorem fst_mem_of_mem_runs {l : List α} {r : α × ℕ} (hr : r ∈ runs l) : r.1 ∈ l := by
  rw [← expand_runs l, expand, List.mem_flatMap]
  exact ⟨r, hr, List.mem_replicate.mpr ⟨Nat.ne_of_gt (pos_of_mem_runs hr), rfl⟩⟩

/-! ## Maximal runs -/

/-- Runs none of which is empty, or is continued by the next. -/
structure MaximalRuns (rs : List (α × ℕ)) : Prop where
  pos : ∀ r ∈ rs, 0 < r.2
  ne : rs.IsChain fun r r' ↦ r.1 ≠ r'.1

theorem exists_runsFrom_eq_cons (c : α) (n : ℕ) (l : List α) :
    ∃ k rs, runsFrom c n l = (c, k) :: rs := by
  induction l generalizing n with
  | nil => exact ⟨n, [], rfl⟩
  | cons d ds ih =>
    rw [runsFrom]
    split
    · exact ih (n + 1)
    · exact ⟨n, runsFrom d 1 ds, rfl⟩

theorem isChain_runsFrom (c : α) (n : ℕ) (l : List α) :
    (runsFrom c n l).IsChain fun r r' ↦ r.1 ≠ r'.1 := by
  induction l generalizing c n with
  | nil => exact .singleton _
  | cons d ds ih =>
    rw [runsFrom]
    split
    · exact ih c (n + 1)
    · rename_i hdc
      obtain ⟨k, rs, hrs⟩ := exists_runsFrom_eq_cons d 1 ds
      have hchain := ih d 1
      rw [hrs] at hchain ⊢
      exact .cons_cons (Ne.symm hdc) hchain

theorem maximal_runs (l : List α) : MaximalRuns (runs l) where
  pos _ := pos_of_mem_runs
  ne := by
    cases l with
    | nil => exact .nil
    | cons c cs => exact isChain_runsFrom c 1 cs

theorem runsFrom_replicate_append (c : α) (n k : ℕ) (l : List α) :
    runsFrom c n (List.replicate k c ++ l) = runsFrom c (n + k) l := by
  induction k generalizing n with
  | zero => rfl
  | succ k ih =>
    rw [List.replicate_succ, List.cons_append, runsFrom, if_pos rfl, ih, Nat.add_assoc,
      Nat.add_comm 1]

/-- Behind a run that they do not continue, maximal runs are found again. -/
theorem runsFrom_expand {c : α} {n : ℕ} {rs : List (α × ℕ)} (h : MaximalRuns ((c, n) :: rs)) :
    runsFrom c n (expand rs) = (c, n) :: rs := by
  induction rs generalizing c n with
  | nil => rfl
  | cons r rs ih =>
    obtain ⟨d, k⟩ := r
    obtain ⟨hne, htail⟩ := List.isChain_cons_cons.mp h.ne
    obtain ⟨k, rfl⟩ := Nat.exists_eq_succ_of_ne_zero
      (Nat.ne_of_gt (h.pos (d, k) (List.mem_cons_of_mem _ List.mem_cons_self)))
    rw [expand_cons, List.replicate_succ, List.cons_append, runsFrom, if_neg (Ne.symm hne),
      runsFrom_replicate_append, Nat.add_comm 1 k, ih ⟨?_, htail⟩]
    intro r hr
    exact h.pos r (List.mem_cons_of_mem _ hr)

/-- **The runs of a list** are the maximal runs that expand to it. -/
theorem runs_eq_iff {l : List α} {rs : List (α × ℕ)} :
    runs l = rs ↔ MaximalRuns rs ∧ expand rs = l := by
  constructor
  · rintro rfl
    exact ⟨maximal_runs l, expand_runs l⟩
  · rintro ⟨h, rfl⟩
    cases rs with
    | nil => rfl
    | cons r rs =>
      obtain ⟨c, n⟩ := r
      obtain ⟨n, rfl⟩ := Nat.exists_eq_succ_of_ne_zero (Nat.ne_of_gt (h.pos _ List.mem_cons_self))
      rw [expand_cons, List.replicate_succ, List.cons_append, runs, runsFrom_replicate_append,
        Nat.add_comm 1 n]
      exact runsFrom_expand h

/-! ## Long runs -/

theorem exists_mem_runsFrom {c d : α} {n N : ℕ} {l : List α} (hN : 0 < N)
    (h : List.replicate N c <:+: List.replicate n d ++ l) : ∃ r ∈ runsFrom d n l, N ≤ r.2 := by
  induction l generalizing d n with
  | nil =>
    rw [List.append_nil] at h
    have hlen := h.length_le
    rw [List.length_replicate, List.length_replicate] at hlen
    exact ⟨(d, n), List.mem_singleton_self _, hlen⟩
  | cons e es ih =>
    rw [runsFrom]
    split
    · rename_i hed
      refine ih ?_
      rwa [hed, ← List.singleton_append, ← List.append_assoc, ← List.replicate_succ'] at h
    rename_i hed
    by_cases hNn : N ≤ n
    · exact ⟨(d, n), List.mem_cons_self, hNn⟩
    -- a row longer than the first run lies behind it, since it cannot go on into the second
    suffices hsuff : List.replicate N c <:+: e :: es by
      obtain ⟨r, hr, hle⟩ := ih (d := e) (n := 1) hsuff
      exact ⟨r, List.mem_cons_of_mem _ hr, hle⟩
    obtain ⟨x, y, hxy⟩ := h
    rw [List.append_assoc] at hxy
    rcases List.append_eq_append_iff.mp hxy with ⟨a, hd, ha⟩ | ⟨a, -, ha⟩
    · cases a with
      | nil => exact ⟨[], y, ha⟩
      | cons b bs =>
        have hmem : ∀ z ∈ b :: bs, z = d := fun z hz ↦
          List.eq_of_mem_replicate (hd ▸ List.mem_append_right x hz)
        have hlen := congrArg List.length hd
        rw [List.length_replicate, List.length_append] at hlen
        have hlt : (b :: bs).length < N := by omega
        have hhead : c = b := by
          have h₀ := congrArg (·[0]?) ha
          rwa [List.getElem?_append_left (by simpa using hN), List.getElem?_replicate_of_lt hN,
            List.cons_append, List.getElem?_cons_zero, Option.some.injEq] at h₀
        have hnext : c = e := by
          have h₁ := congrArg (·[(b :: bs).length]?) ha
          rwa [List.getElem?_append_left (by simpa using hlt), List.getElem?_replicate_of_lt hlt,
            List.getElem?_append_right (Nat.le_refl _), Nat.sub_self, List.getElem?_cons_zero,
            Option.some.injEq] at h₁
        exact absurd (hnext.symm.trans (hhead.trans (hmem b List.mem_cons_self))) hed
    · exact ⟨a, y, by rw [List.append_assoc]; exact ha.symm⟩

/-- **Long runs.** Some run has at least `N` elements exactly when there are `N` equal elements in a
row. -/
theorem exists_mem_runs_iff {N : ℕ} {l : List α} (hN : 0 < N) :
    (∃ r ∈ runs l, N ≤ r.2) ↔ ∃ c, List.replicate N c <:+: l := by
  constructor
  · rintro ⟨r, hr, hle⟩
    obtain ⟨as, bs, hab⟩ := List.append_of_mem hr
    refine ⟨r.1, expand as, List.replicate (r.2 - N) r.1 ++ expand bs, ?_⟩
    rw [← expand_runs l, hab, expand_append, expand_cons, List.append_assoc,
      ← List.append_assoc (List.replicate N r.1), List.replicate_append_replicate,
      Nat.add_sub_cancel' hle]
  · rintro ⟨c, hc⟩
    cases l with
    | nil =>
      have hlen := hc.length_le
      rw [List.length_replicate, List.length_nil] at hlen
      omega
    | cons d ds => exact exists_mem_runsFrom hN (n := 1) hc

theorem le_length_of_mem_runs {l : List α} {r : α × ℕ} (hr : r ∈ runs l) : r.2 ≤ l.length := by
  obtain ⟨c, hc⟩ := (exists_mem_runs_iff (pos_of_mem_runs hr)).mp ⟨r, hr, Nat.le_refl _⟩
  have hlen := hc.length_le
  rwa [List.length_replicate] at hlen

end Runs
