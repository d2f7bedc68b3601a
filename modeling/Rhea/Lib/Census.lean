import Rhea.Lib.Custody

/-!
# Counting the tokens of a system

There may be infinitely many places, but only finitely many tokens are in the system at any time.  A
`Census` lists them, each with its place; it is kept up to date by every transfer
(`Census.transfer`).  When every move of a token takes it to a place of smaller weight, only finitely
many moves follow each other without new tokens (`eventually_still`).
-/

namespace Custody

variable {α ι : Type*} [DecidableEq ι] {hold hold' : ι → Multiset α} {a : α} {x y : Option ι}
  {w : Multiset (ι × α)}

/-- The tokens that a list of placed tokens has at place `z`. -/
def contents (w : Multiset (ι × α)) (z : ι) : Multiset α :=
  (w.filter fun t => t.1 = z).map Prod.snd

@[simp] theorem contents_zero (z : ι) : contents (0 : Multiset (ι × α)) z = 0 := rfl

theorem contents_add (w v : Multiset (ι × α)) (z : ι) :
    contents (w + v) z = contents w z + contents v z := by
  simp only [contents, Multiset.filter_add, Multiset.map_add]

theorem contents_singleton (x : ι) (a : α) (z : ι) :
    contents {(x, a)} z = if z = x then {a} else 0 := by
  unfold contents
  rw [Multiset.filter_singleton]
  by_cases h : x = z
  · simp [h]
  · simp [h, Ne.symm h]

/-- `w` lists the tokens of the system with their places. -/
def Census (hold : ι → Multiset α) (w : Multiset (ι × α)) : Prop := ∀ z, hold z = contents w z

/-- A token at a place that may be missing. -/
def placed (x : Option ι) (a : α) : Multiset (ι × α) := x.elim 0 fun x => {(x, a)}

theorem contents_placed (x : Option ι) (a : α) (z : ι) :
    contents (placed x a) z = if some z = x then {a} else 0 := by
  cases x with
  | none => simp [placed]
  | some x => simp only [placed, Option.elim_some, contents_singleton, Option.some.injEq]

theorem Census.mem (c : Census hold w) {z : ι} : (z, a) ∈ w ↔ a ∈ hold z := by
  rw [c z, contents]
  constructor
  · intro h
    exact Multiset.mem_map.2 ⟨(z, a), Multiset.mem_filter.2 ⟨h, rfl⟩, rfl⟩
  · intro h
    obtain ⟨⟨z', b⟩, hb, rfl⟩ := Multiset.mem_map.1 h
    obtain ⟨hw, rfl⟩ := Multiset.mem_filter.1 hb
    exact hw

theorem Census.transfer (c : Census hold w) (t : Transfer hold hold' a x y) (hne : x ≠ y) :
    ∃ w', Census hold' w' ∧ w' + placed x a = w + placed y a := by
  obtain ⟨rest, hw⟩ : ∃ rest, w = rest + placed x a := by
    cases x with
    | none => exact ⟨w, (add_zero w).symm⟩
    | some x =>
      obtain ⟨rest, hw⟩ := Multiset.exists_cons_of_mem (c.mem.2 (t.mem_src hne))
      exact ⟨rest, by rw [hw, placed, Option.elim_some, add_comm, Multiset.singleton_add]⟩
  refine ⟨rest + placed y a, fun z => ?_, by rw [hw]; abel⟩
  have before : hold z = contents rest z + if some z = x then {a} else 0 := by
    rw [c z, hw, contents_add, contents_placed]
  have after := t z
  rw [before] at after
  rw [contents_add, contents_placed]
  exact add_right_cancel (after.trans (add_right_comm ..))

/-- What is left of the way of all tokens. -/
def weigh (weight : ι → ℕ) (w : Multiset (ι × α)) : ℕ := (w.map fun t => weight t.1).sum

omit [DecidableEq ι] in
theorem weigh_add (weight : ι → ℕ) (w v : Multiset (ι × α)) :
    weigh weight (w + v) = weigh weight w + weigh weight v := by
  simp only [weigh, Multiset.map_add, Multiset.sum_add]

omit [DecidableEq ι] in
theorem weigh_placed (weight : ι → ℕ) (x : Option ι) (a : α) :
    weigh weight (placed x a) = x.elim 0 weight := by
  cases x <;> simp [placed, weigh]

/-- A token moves to a place of smaller weight, or it leaves. -/
def Moved (weight : ι → ℕ) (hold hold' : ι → Multiset α) : Prop :=
  ∃ a x y, Transfer hold hold' a (some x) y ∧ y.elim 0 weight < weight x

/-- A move leaves less of the way. -/
theorem Census.moved {weight : ι → ℕ} (c : Census hold w) (h : Moved weight hold hold') :
    ∃ w', Census hold' w' ∧ weigh weight w' < weigh weight w := by
  obtain ⟨a, x, y, t, less⟩ := h
  have hne : some x ≠ y := by
    rintro rfl
    exact absurd less (lt_irrefl _)
  obtain ⟨w', c', hw⟩ := c.transfer t hne
  have := congrArg (weigh weight) hw
  rw [weigh_add, weigh_add, weigh_placed, weigh_placed, Option.elim_some] at this
  exact ⟨w', c', by omega⟩

/-- When from some time on tokens only move, in the end none moves. -/
theorem eventually_still {weight : ι → ℕ} {holds : ℕ → ι → Multiset α} {N : ℕ}
    (c : Census (holds N) w)
    (moves : ∀ n ≥ N, Moved weight (holds n) (holds (n + 1)) ∨ holds (n + 1) = holds n) :
    ∃ M ≥ N, ∀ n ≥ M, ¬ Moved weight (holds n) (holds (n + 1)) := by
  -- by induction on what is left of the way: after the next move it is less
  induction hk : weigh weight w using Nat.strong_induction_on generalizing N w with
  | _ k ih =>
    by_cases still : ∀ n ≥ N, ¬ Moved weight (holds n) (holds (n + 1))
    · exact ⟨N, le_rfl, still⟩
    · push Not at still
      obtain ⟨n, hn, hmoved⟩ := still
      obtain ⟨v, cv, hv⟩ : ∃ v, Census (holds n) v ∧ weigh weight v ≤ weigh weight w := by
        clear hmoved
        induction n, hn using Nat.le_induction with
        | base => exact ⟨w, c, le_rfl⟩
        | succ n hn ih =>
          obtain ⟨v, cv, hv⟩ := ih
          rcases moves n hn with hmoved | same
          · obtain ⟨v', cv', less⟩ := cv.moved hmoved
            exact ⟨v', cv', by omega⟩
          · exact ⟨v, same ▸ cv, hv⟩
      obtain ⟨v', cv', less⟩ := cv.moved hmoved
      obtain ⟨M, hM, rest⟩ := ih (weigh weight v') (by omega) cv'
        (fun m hm => moves m (by omega)) rfl
      exact ⟨M, by omega, rest⟩

end Custody
