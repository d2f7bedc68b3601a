import Mathlib

/-!
# Runs of a labelled transition function

A system is a partial function `step : σ → α → Option σ`: the state after an action, or `none` when
the action is not enabled.  This file runs lists of actions (`exec`), records what an observer sees
along a run (`trace`), splits runs, and gives the induction rule for invariants (`exec_invariant`).
-/

namespace Transition

variable {σ α β : Type*} (step : σ → α → Option σ)

/-- Execute a list of actions; `none` when one of them is not enabled. -/
def exec : σ → List α → Option σ
  | s, [] => some s
  | s, a :: as => (step s a).bind fun s' => exec s' as

/-- What `obs` reports at the successive steps of a run. -/
def trace (obs : σ → α → List β) : σ → List α → List β
  | _, [] => []
  | s, a :: as => obs s a ++ ((step s a).elim [] fun s' => trace obs s' as)

theorem exec_append (s : σ) (as bs : List α) :
    exec step s (as ++ bs) = (exec step s as).bind fun s' => exec step s' bs := by
  induction as generalizing s with
  | nil => rfl
  | cons a as ih =>
    simp only [List.cons_append, exec]
    cases step s a with
    | none => rfl
    | some s' => exact ih s'

theorem exec_append_eq_some {s s' : σ} {as bs : List α} :
    exec step s (as ++ bs) = some s' ↔
      ∃ m, exec step s as = some m ∧ exec step m bs = some s' := by
  rw [exec_append, Option.bind_eq_some_iff]

theorem exec_snoc_eq_some {s s' : σ} {as : List α} {a : α} :
    exec step s (as ++ [a]) = some s' ↔
      ∃ m, exec step s as = some m ∧ step m a = some s' := by
  simp [exec_append_eq_some, exec]

theorem trace_append (obs : σ → α → List β) {s m : σ} {as : List α} (bs : List α)
    (h : exec step s as = some m) :
    trace step obs s (as ++ bs) = trace step obs s as ++ trace step obs m bs := by
  induction as generalizing s with
  | nil =>
    obtain rfl : s = m := Option.some.inj h
    rfl
  | cons a as ih =>
    simp only [exec, Option.bind_eq_some_iff] at h
    obtain ⟨t, ht, h⟩ := h
    simp only [List.cons_append, trace, ht, Option.elim_some, ih h, List.append_assoc]

theorem trace_snoc (obs : σ → α → List β) {s m m' : σ} {as : List α} {a : α}
    (h : exec step s as = some m) (ha : step m a = some m') :
    trace step obs s (as ++ [a]) = trace step obs s as ++ obs m a := by
  simp [trace_append step obs [a] h, trace, ha]

theorem trace_eq_nil {obs : σ → α → List β} {s : σ} {as : List α}
    (h : ∀ a ∈ as, ∀ s, obs s a = []) : trace step obs s as = [] := by
  induction as generalizing s with
  | nil => rfl
  | cons a as ih =>
    rw [trace, h a List.mem_cons_self, List.nil_append]
    cases step s a with
    | none => rfl
    | some s' => exact ih fun b hb => h b (List.mem_cons_of_mem a hb)

/-- An action of two runs, one after the other, is one of the first or one of the second. -/
theorem split_append {as bs pre post : List α} {a : α} (h : as ++ bs = pre ++ a :: post) :
    (∃ l, as = pre ++ a :: l ∧ post = l ++ bs) ∨ ∃ l, pre = as ++ l ∧ bs = l ++ a :: post := by
  rcases List.append_eq_append_iff.1 h with ⟨l, hpre, hbs⟩ | ⟨l, has, hpost⟩
  · exact .inr ⟨l, hpre, hbs⟩
  · cases l with
    | nil => exact .inr ⟨[], by simpa using has.symm, hpost.symm⟩
    | cons b l =>
      obtain ⟨rfl, rfl⟩ := List.cons.inj hpost
      exact .inl ⟨l, has, rfl⟩

/-- Every action of a run is taken in a state in which `P` allows it. -/
def Along (P : σ → α → Prop) : σ → List α → Prop
  | _, [] => True
  | s, a :: as => P s a ∧ ∀ s' ∈ step s a, Along P s' as

instance Along.decidable (P : σ → α → Prop) [∀ s a, Decidable (P s a)] :
    ∀ s as, Decidable (Along step P s as)
  | _, [] => inferInstanceAs (Decidable True)
  | s, a :: as =>
    have := fun s' => Along.decidable P s' as
    inferInstanceAs (Decidable (P s a ∧ ∀ s' ∈ step s a, Along step P s' as))

theorem along_iff {P : σ → α → Prop} {s : σ} {as : List α} :
    Along step P s as ↔
      ∀ pre a post m, as = pre ++ a :: post → exec step s pre = some m → P m a := by
  induction as generalizing s with
  | nil => simp [Along]
  | cons b as ih =>
    constructor
    · rintro ⟨hb, rest⟩ pre a post m has hm
      cases pre with
      | nil =>
        obtain rfl : s = m := Option.some.inj hm
        exact (List.cons.inj has).1 ▸ hb
      | cons c pre =>
        obtain ⟨rfl, tail⟩ := List.cons.inj has
        simp only [exec, Option.bind_eq_some_iff] at hm
        obtain ⟨s', hs', hm⟩ := hm
        exact ih.1 (rest s' hs') pre a post m tail hm
    · intro h
      refine ⟨h [] b as s rfl rfl, fun s' hs' => ih.2 fun pre a post m has hm => ?_⟩
      refine h (b :: pre) a post m (by rw [has]; rfl) ?_
      simp only [exec, Option.mem_def.1 hs', Option.bind_some, hm]

theorem Along.of_append {P : σ → α → Prop} {s : σ} {as bs : List α}
    (h : Along step P s (as ++ bs)) : Along step P s as :=
  (along_iff step).2 fun pre a post m has =>
    (along_iff step).1 h pre a (post ++ bs) m (by simp [has])

theorem Along.last {P : σ → α → Prop} {s m : σ} {as : List α} {a : α}
    (h : Along step P s (as ++ [a])) (hm : exec step s as = some m) : P m a :=
  (along_iff step).1 h as a [] m rfl hm

/-- A property that holds initially and that every step keeps holds after every run.  The runs may
be restricted by a prefix-closed condition `ok` on their actions. -/
theorem exec_invariant {s₀ : σ} {ok : List α → Prop} {inv : List α → σ → Prop}
    (prefixClosed : ∀ as a, ok (as ++ [a]) → ok as) (init : inv [] s₀)
    (next : ∀ as a s s', exec step s₀ as = some s → ok (as ++ [a]) → inv as s →
      step s a = some s' → inv (as ++ [a]) s')
    {as : List α} {s : σ} (h : exec step s₀ as = some s) (hok : ok as) : inv as s := by
  induction as using List.reverseRecOn generalizing s with
  | nil =>
    obtain rfl : s₀ = s := Option.some.inj h
    exact init
  | append_singleton as a ih =>
    obtain ⟨m, hm, ha⟩ := (exec_snoc_eq_some step).1 h
    exact next as a m s hm hok (ih hm (prefixClosed as a hok)) ha

/-- An observation of a run was made at one of its steps, after what was seen before it. -/
theorem trace_split {obs : σ → α → List β} {s s' : σ} {as : List α} {b : β} {before later : List β}
    (h : exec step s as = some s') (hb : trace step obs s as = before ++ b :: later) :
    ∃ pre a post m m' front back, as = pre ++ a :: post ∧ exec step s pre = some m ∧
      step m a = some m' ∧ obs m a = front ++ b :: back ∧
      before = trace step obs s pre ++ front := by
  induction as using List.reverseRecOn generalizing s' later with
  | nil => simp [trace] at hb
  | append_singleton as a ih =>
    obtain ⟨m, hm, ha⟩ := (exec_snoc_eq_some step).1 h
    rw [trace_snoc step obs hm ha] at hb
    rcases split_append hb with ⟨l, has, -⟩ | ⟨l, rfl, hobs⟩
    · obtain ⟨pre, a', post, m₁, m₂, front, back, rfl, rest⟩ := ih hm has
      exact ⟨pre, a', post ++ [a], m₁, m₂, front, back, by simp, rest⟩
    · exact ⟨as, a, [], m, s', l, later, rfl, hm, ha, hobs, rfl⟩

end Transition
