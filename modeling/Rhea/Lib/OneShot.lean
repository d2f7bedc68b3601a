import Mathlib

/-!
# Entries that can be taken once

`cell : κ → Option β` is a map from which entries are taken: taking the entry of a key erases it.
`Takes ready cell ks` says that the keys `ks` can be taken one after the other, each with an entry
that is `ready`.  This is the case exactly when the keys are distinct and each of them has a ready
entry at the beginning (`takes_iff`).
-/

namespace OneShot

variable {κ β : Type*} [DecidableEq κ] (ready : β → Prop)

/-- The map after the keys `ks` have been taken. -/
def erased (cell : κ → Option β) (ks : List κ) : κ → Option β :=
  fun k => if k ∈ ks then none else cell k

/-- Every key in turn has a ready entry, which is taken. -/
def Takes (cell : κ → Option β) : List κ → Prop
  | [] => True
  | k :: ks => (∃ b, cell k = some b ∧ ready b) ∧ Takes (erased cell [k]) ks

@[simp] theorem erased_nil (cell : κ → Option β) : erased cell [] = cell := by
  funext k
  simp [erased]

theorem erased_append (cell : κ → Option β) (ks ls : List κ) :
    erased cell (ks ++ ls) = erased (erased cell ks) ls := by
  funext k
  by_cases hk : k ∈ ks <;> simp [erased, hk]

theorem erased_singleton (cell : κ → Option β) (k : κ) :
    erased cell [k] = Function.update cell k none := by
  funext l
  simp [erased, Function.update_apply]

theorem takes_append (cell : κ → Option β) (ks ls : List κ) :
    Takes ready cell (ks ++ ls) ↔ Takes ready cell ks ∧ Takes ready (erased cell ks) ls := by
  induction ks generalizing cell with
  | nil => simp [Takes]
  | cons k ks ih =>
    rw [List.cons_append, Takes, Takes, ih, and_assoc, ← erased_append]
    rfl

/-- Keys can be taken in turn exactly when they are distinct and all ready. -/
theorem takes_iff (cell : κ → Option β) (ks : List κ) :
    Takes ready cell ks ↔ ks.Nodup ∧ ∀ k ∈ ks, ∃ b, cell k = some b ∧ ready b := by
  induction ks generalizing cell with
  | nil => simp [Takes]
  | cons k ks ih =>
    rw [Takes, ih, List.nodup_cons]
    constructor
    · rintro ⟨hk, nodup, later⟩
      refine ⟨⟨fun mem => ?_, nodup⟩, fun l hl => ?_⟩
      · obtain ⟨b, hb, -⟩ := later k mem
        simp [erased] at hb
      · rcases List.mem_cons.1 hl with rfl | hl
        · exact hk
        · obtain ⟨b, hb, hready⟩ := later l hl
          by_cases hlk : l = k <;> simp [erased, hlk] at hb
          exact ⟨b, hb, hready⟩
    · rintro ⟨⟨fresh, nodup⟩, all⟩
      refine ⟨all k (List.mem_cons_self ..), nodup, fun l hl => ?_⟩
      have hlk : l ≠ k := fun h => fresh (h ▸ hl)
      simpa [erased, hlk] using all l (List.mem_cons_of_mem _ hl)

end OneShot
