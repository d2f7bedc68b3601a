import Rhea.Lib.Runs

/-!
# Infinite executions

An `Execution` is an infinite sequence of enabled actions; its beginnings are runs
(`Execution.exec_acts`).  Liveness proofs rest on two facts of this file: what only the actions of
one process change has not changed at the next of them (`Execution.next_action`), and every run
continues to an execution in which each action of a given list gets its turn again and again
(`exists_scheduled`).
-/

namespace Transition

variable {σ α β : Type*} {step : σ → α → Option σ} {s₀ s : σ}

/-- An infinite sequence of enabled actions, with the states in which they are taken. -/
structure Execution (step : σ → α → Option σ) (s₀ : σ) where
  state : ℕ → σ
  act : ℕ → α
  start : state 0 = s₀
  next : ∀ n, step (state n) (act n) = some (state (n + 1))

namespace Execution

/-- The first `n` actions. -/
def acts (e : Execution step s₀) (n : ℕ) : List α := (List.range n).map e.act

theorem acts_succ (e : Execution step s₀) (n : ℕ) : e.acts (n + 1) = e.acts n ++ [e.act n] := by
  simp [acts, List.range_succ]

@[simp] theorem length_acts (e : Execution step s₀) (n : ℕ) : (e.acts n).length = n := by
  simp [acts]

theorem exec_acts (e : Execution step s₀) (n : ℕ) : exec step s₀ (e.acts n) = some (e.state n) := by
  induction n with
  | zero => exact congrArg some e.start.symm
  | succ n ih =>
    rw [acts_succ, exec_snoc_eq_some]
    exact ⟨e.state n, ih, e.next n⟩

theorem mem_acts (e : Execution step s₀) {n : ℕ} {a : α} : a ∈ e.acts n ↔ ∃ k < n, e.act k = a := by
  simp [acts]

theorem acts_eq_append (e : Execution step s₀) {n m : ℕ} (h : n < m) :
    ∃ later, e.acts m = e.acts n ++ e.act n :: later := by
  induction m, h using Nat.le_induction with
  | base => exact ⟨[], e.acts_succ n⟩
  | succ m _ ih =>
    obtain ⟨later, hm⟩ := ih
    exact ⟨later ++ [e.act m], by rw [acts_succ, hm, List.append_assoc, List.cons_append]⟩

theorem acts_prefix (e : Execution step s₀) {n m : ℕ} (h : n ≤ m) : e.acts n <+: e.acts m := by
  rcases h.eq_or_lt with rfl | h
  · exact List.prefix_rfl
  · obtain ⟨later, hm⟩ := e.acts_eq_append h
    exact ⟨_, hm.symm⟩

theorem acts_split (e : Execution step s₀) {n : ℕ} {pre post : List α} {a : α}
    (h : e.acts n = pre ++ a :: post) : pre = e.acts pre.length ∧ a = e.act pre.length := by
  have hlt : pre.length < n := by
    have := congrArg List.length h
    simp only [length_acts, List.length_append, List.length_cons] at this
    omega
  obtain ⟨later, hn⟩ := e.acts_eq_append hlt
  have := List.append_inj (h.symm.trans hn) (by simp)
  exact ⟨this.1, (List.cons.inj this.2).1⟩

theorem mem_trace_acts (e : Execution step s₀) {obs : σ → α → List β} {n : ℕ} {b : β} :
    b ∈ trace step obs s₀ (e.acts n) ↔ ∃ k < n, b ∈ obs (e.state k) (e.act k) := by
  induction n with
  | zero => simp [acts, trace]
  | succ n ih =>
    rw [acts_succ, trace_snoc step obs (e.exec_acts n) (e.next n), List.mem_append, ih]
    constructor
    · rintro (⟨k, hk, hb⟩ | hb)
      · exact ⟨k, by omega, hb⟩
      · exact ⟨n, by omega, hb⟩
    · rintro ⟨k, hk, hb⟩
      rcases Nat.lt_succ_iff_lt_or_eq.1 hk with hk | rfl
      · exact .inl ⟨k, hk, hb⟩
      · exact .inr hb

/-- What only the actions in `P` change is the same when the next of them is taken. -/
theorem next_action (e : Execution step s₀) {f : σ → β} {P : α → Prop}
    (frame : ∀ s a s', step s a = some s' → ¬ P a → f s' = f s) {n : ℕ}
    (h : ∃ m ≥ n, P (e.act m)) : ∃ m ≥ n, P (e.act m) ∧ f (e.state m) = f (e.state n) := by
  classical
  have least := Nat.find_spec h
  refine ⟨Nat.find h, least.1, least.2, ?_⟩
  have before : ∀ k, n ≤ k → k ≤ Nat.find h → f (e.state k) = f (e.state n) := by
    intro k hk
    induction k, hk using Nat.le_induction with
    | base => exact fun _ => rfl
    | succ k hk ih =>
      intro hle
      have other : ¬ P (e.act k) := fun hP => Nat.find_min h (by omega) ⟨hk, hP⟩
      exact (frame _ _ _ (e.next k) other).trans (ih (by omega))
  exact before _ least.1 le_rfl

/-- The execution in which a scheduler picks the actions. -/
def ofScheduler (pick : ℕ → σ → α) (enabled : ∀ n s, (step s (pick n s)).isSome) (s₀ : σ) :
    Execution step s₀ where
  state n := n.rec s₀ fun n s => (step s (pick n s)).get (enabled n s)
  act n := pick n (n.rec s₀ fun n s => (step s (pick n s)).get (enabled n s))
  start := rfl
  next _ := (Option.some_get _).symm

/-- A run continues to an execution when the state it leads to starts one. -/
theorem exists_append {as : List α} (h : exec step s₀ as = some s) (e : Execution step s) :
    ∃ e' : Execution step s₀, e'.acts as.length = as ∧
      ∀ n, e'.state (as.length + n) = e.state n ∧ e'.act (as.length + n) = e.act n := by
  induction as generalizing s₀ with
  | nil =>
    obtain rfl : s₀ = s := Option.some.inj h
    exact ⟨e, rfl, fun n => by simp⟩
  | cons a as ih =>
    obtain ⟨s₁, hs₁, h⟩ := Option.bind_eq_some_iff.1 h
    obtain ⟨e₁, hacts, htail⟩ := ih h
    refine ⟨⟨fun n => n.casesOn s₀ e₁.state, fun n => n.casesOn a e₁.act, rfl, ?_⟩, ?_, ?_⟩
    · intro n
      cases n with
      | zero => exact hs₁.trans (congrArg some e₁.start.symm)
      | succ n => exact e₁.next n
    · simp only [acts, List.length_cons, List.range_succ_eq_map, List.map_cons, List.map_map]
      exact congrArg (a :: ·) hacts
    · intro n
      rw [List.length_cons, Nat.add_right_comm]
      exact htail n

end Execution

/-- From every state there is an execution in which each of the `turns` is taken again and again
whenever it is enabled when its turn comes; otherwise the system idles. -/
theorem exists_scheduled (turns : ℕ → α) (idle : σ → α) (idles : ∀ s, step s (idle s) = some s)
    (s₀ : σ) :
    ∃ e : Execution step s₀, (∀ n, e.act n = idle (e.state n) ∨ ∃ k, e.act n = turns k) ∧
      ∀ k N, ∃ n ≥ N, (step (e.state n) (turns k)).isSome → e.act n = turns k := by
  -- at time `n` it is the turn of the first component of `n`, so every turn comes infinitely often
  let pick (n : ℕ) (s : σ) : α :=
    if (step s (turns n.unpair.1)).isSome then turns n.unpair.1 else idle s
  have enabled : ∀ n s, (step s (pick n s)).isSome := by
    intro n s
    by_cases h : (step s (turns n.unpair.1)).isSome
    · simpa only [pick, if_pos h] using h
    · simp only [pick, if_neg h, idles, Option.isSome_some]
  let e := Execution.ofScheduler pick enabled s₀
  have picked : ∀ n, e.act n = pick n (e.state n) := fun n => rfl
  refine ⟨e, fun n => ?_, fun k N => ⟨Nat.pair k N, Nat.right_le_pair k N, fun h => ?_⟩⟩
  · rw [picked n]
    by_cases h : (step (e.state n) (turns n.unpair.1)).isSome
    · exact .inr ⟨_, if_pos h⟩
    · exact .inl (if_neg h)
  · rw [picked]
    simp only [pick, Nat.unpair_pair, if_pos h]

end Transition
