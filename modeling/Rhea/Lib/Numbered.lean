import Mathlib

/-!
# Names that end in a number

A name `stem ++ separator ++ digits` determines its stem and its digits when the separator ends in
a character that is not a digit: the digits are the longest such suffix.  This holds for arbitrary
stems, also for those that contain the separator or end in digits themselves.
-/

namespace Numbered

variable {α : Type*} {P : α → Bool}

theorem takeWhile_reverse_append {l x : List α} (hl : ∀ a ∈ l.getLast?, P a = false)
    (hx : ∀ a ∈ x, P a = true) : (l ++ x).reverse.takeWhile P = x.reverse := by
  rw [List.reverse_append, List.takeWhile_append_of_pos (by simpa using hx)]
  cases h : l.reverse with
  | nil => simp
  | cons b r =>
    have hb : P b = false := by
      apply hl
      rw [← List.head?_reverse, h]
      rfl
    simp [hb]

/-- The split of a list before its final block of `P` elements is unique. -/
theorem append_inj_of_getLast {l m x y : List α} (hl : ∀ a ∈ l.getLast?, P a = false)
    (hm : ∀ a ∈ m.getLast?, P a = false) (hx : ∀ a ∈ x, P a = true) (hy : ∀ a ∈ y, P a = true)
    (h : l ++ x = m ++ y) : l = m ∧ x = y := by
  have key : x = y := by
    have := takeWhile_reverse_append hl hx
    rw [h, takeWhile_reverse_append hm hy] at this
    exact (List.reverse_injective this).symm
  subst key
  exact ⟨List.append_cancel_right h, rfl⟩

/-- The name `stem ++ separator ++ n`, with `n` in decimal. -/
def numbered (separator stem : String) (n : ℕ) : String := stem ++ separator ++ toString n

theorem isDigit_of_mem_toString {n : ℕ} {c : Char} (hc : c ∈ (toString n).toList) :
    c.isDigit = true := by
  have h : (toString n).toList = Nat.toDigits 10 n := by
    show (Nat.repr n).toList = _
    simp [Nat.repr]
  rw [h] at hc
  exact Nat.isDigit_of_mem_toDigits (by decide) (by decide) hc

/-- A numbered name determines its stem and its number. -/
theorem numbered_inj {separator : String}
    (hsep : ∃ c ∈ separator.toList.getLast?, c.isDigit = false) {s t : String} {m n : ℕ}
    (h : numbered separator s m = numbered separator t n) : s = t ∧ m = n := by
  obtain ⟨c, hc, hdigit⟩ := hsep
  have last (u : String) : ∀ a ∈ (u.toList ++ separator.toList).getLast?, a.isDigit = false := by
    intro a ha
    rw [List.getLast?_append, Option.mem_def.1 hc] at ha
    obtain rfl : c = a := by simpa using ha
    exact hdigit
  have hlist := congrArg String.toList h
  simp only [numbered, String.toList_append] at hlist
  obtain ⟨hstem, hnum⟩ := append_inj_of_getLast (last s) (last t)
    (fun _ => isDigit_of_mem_toString) (fun _ => isDigit_of_mem_toString) hlist
  exact ⟨String.toList_inj.1 (List.append_cancel_right hstem),
    Nat.repr_injective (String.toList_inj.1 hnum)⟩

end Numbered
