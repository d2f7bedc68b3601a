import Mathlib

/-!
# Tokens in the custody of places

A system hands tokens of type `α` from place to place; `hold x` is the multiset of tokens at place
`x : ι`.  A `Transfer` is one hand-over: a single token leaves its source and arrives at its
destination, every other place is untouched; a missing source is a token that enters the system, a
missing destination one that leaves it.  Tokens carry keys.  `Solo` says that at most one token
with a given key is in the system, and is kept by every transfer except the entry of a second token
with that key.
-/

namespace Custody

variable {α κ ι : Type*}

/-- The token `a` moves from place `x` to place `y`; everything else stays. -/
def Transfer [DecidableEq ι] (hold hold' : ι → Multiset α) (a : α) (x y : Option ι) : Prop :=
  ∀ z, hold' z + (if some z = x then {a} else 0) = hold z + (if some z = y then {a} else 0)

/-- The number of tokens with key `k` at place `z`. -/
def tokens [DecidableEq κ] (key : α → κ) (hold : ι → Multiset α) (k : κ) (z : ι) : ℕ :=
  (hold z).countP fun a => key a = k

/-- No token with key `k` is in the system. -/
def Quiet (key : α → κ) (hold : ι → Multiset α) (k : κ) : Prop :=
  ∀ z, ∀ a ∈ hold z, key a ≠ k

/-- At most one token with key `k` is in the system. -/
def Solo [DecidableEq ι] [DecidableEq κ] (key : α → κ) (hold : ι → Multiset α) (k : κ) : Prop :=
  ∃ x, ∀ z, tokens key hold k z ≤ if z = x then 1 else 0

/-- Exactly one token with key `k` is in the system, at place `x`. -/
def OneAt [DecidableEq ι] [DecidableEq κ] (key : α → κ) (hold : ι → Multiset α) (k : κ) (x : ι) :
    Prop :=
  ∀ z, tokens key hold k z = if z = x then 1 else 0

section Transfer

variable [DecidableEq ι] {hold hold' : ι → Multiset α} {a b : α} {x y : Option ι} {z : ι}

theorem Transfer.mem_src (h : Transfer hold hold' a (some z) y) (hne : some z ≠ y) :
    a ∈ hold z := by
  have := h z
  rw [if_pos rfl, if_neg hne, add_zero] at this
  rw [← this]
  simp

theorem Transfer.mem_dst (h : Transfer hold hold' a x (some z)) (hne : some z ≠ x) :
    a ∈ hold' z := by
  have := h z
  rw [if_pos rfl, if_neg hne, add_zero] at this
  rw [this]
  simp

/-- A token after the transfer was there before, or it is the moved one at its destination. -/
theorem Transfer.mem_of_mem (h : Transfer hold hold' a x y) (hb : b ∈ hold' z) :
    b ∈ hold z ∨ b = a ∧ some z = y := by
  have hb' : b ∈ hold' z + (if some z = x then {a} else 0) := Multiset.mem_add.2 (Or.inl hb)
  rw [h z, Multiset.mem_add] at hb'
  rcases hb' with hb' | hb'
  · exact Or.inl hb'
  · split_ifs at hb' with hy
    · exact Or.inr ⟨Multiset.mem_singleton.1 hb', hy⟩
    · simp at hb'

theorem Transfer.mem_or_moved (h : Transfer hold hold' a x y) (hb : b ∈ hold z) :
    b ∈ hold' z ∨ b = a ∧ some z = x := by
  have hb' : b ∈ hold z + (if some z = y then {a} else 0) := Multiset.mem_add.2 (Or.inl hb)
  rw [← h z, Multiset.mem_add] at hb'
  rcases hb' with hb' | hb'
  · exact Or.inl hb'
  · split_ifs at hb' with hx
    · exact Or.inr ⟨Multiset.mem_singleton.1 hb', hx⟩
    · simp at hb'

theorem Transfer.tokens_of_ne [DecidableEq κ] {key : α → κ} {k : κ} (h : Transfer hold hold' a x y)
    (hk : key a ≠ k) (z : ι) : tokens key hold' k z = tokens key hold k z := by
  have := congrArg (Multiset.countP fun a => key a = k) (h z)
  have hx : ∀ w : Option ι, Multiset.countP (fun a => key a = k)
      (if some z = w then ({a} : Multiset α) else 0) = 0 := by
    intro w
    split_ifs <;> simp [Multiset.countP_eq_zero, hk]
  rwa [Multiset.countP_add, Multiset.countP_add, hx, hx, add_zero, add_zero] at this

theorem Transfer.tokens_of_eq [DecidableEq κ] (key : α → κ) (h : Transfer hold hold' a x y) (z : ι) :
    tokens key hold' (key a) z + (if some z = x then 1 else 0) =
      tokens key hold (key a) z + (if some z = y then 1 else 0) := by
  have := congrArg (Multiset.countP fun b => key b = key a) (h z)
  rw [Multiset.countP_add, Multiset.countP_add] at this
  have hx : ∀ w : Option ι, Multiset.countP (fun b => key b = key a)
      (if some z = w then ({a} : Multiset α) else 0) = if some z = w then 1 else 0 := by
    intro w
    split_ifs
    · simp [← Multiset.cons_zero]
    · rfl
  rwa [hx, hx] at this

end Transfer

section Solo

variable {key : α → κ} {hold hold' : ι → Multiset α} {k : κ} {a b : α} {x y : ι}

theorem Quiet.of_transfer [DecidableEq ι] {x y : Option ι} (h : Quiet key hold k)
    (t : Transfer hold hold' a x y) (hk : key a ≠ k) : Quiet key hold' k := by
  intro z b hb
  rcases t.mem_of_mem hb with hb | ⟨rfl, -⟩
  · exact h z b hb
  · exact hk

variable [DecidableEq κ]

theorem tokens_pos_of_mem (key : α → κ) {z : ι} (ha : a ∈ hold z) : 0 < tokens key hold (key a) z :=
  Multiset.countP_pos.2 ⟨a, ha, rfl⟩

theorem quiet_iff_tokens : Quiet key hold k ↔ ∀ z, tokens key hold k z = 0 := by
  simp only [Quiet, tokens, Multiset.countP_eq_zero]

variable [DecidableEq ι]

theorem Quiet.solo [Inhabited ι] (h : Quiet key hold k) : Solo key hold k :=
  ⟨default, fun z => by rw [quiet_iff_tokens.1 h z]; exact Nat.zero_le _⟩

theorem Solo.place_eq (h : Solo key hold k) (ha : a ∈ hold x) (hb : b ∈ hold y)
    (hka : key a = k) (hkb : key b = k) : x = y := by
  obtain ⟨p, hp⟩ := h
  have at_p {c : α} {z : ι} (hc : c ∈ hold z) (hkc : key c = k) : z = p := by
    have hpos := tokens_pos_of_mem key hc
    have := hp z
    rw [hkc] at hpos
    split_ifs at this with hz
    · exact hz
    · omega
  rw [at_p ha hka, at_p hb hkb]

theorem Solo.eq_of_mem (h : Solo key hold k) (ha : a ∈ hold x) (hb : b ∈ hold y)
    (hka : key a = k) (hkb : key b = k) : a = b := by
  obtain rfl := h.place_eq ha hb hka hkb
  obtain ⟨p, hp⟩ := h
  by_contra hne
  obtain ⟨t, ht⟩ := Multiset.exists_cons_of_mem ha
  have hbt : b ∈ t := by
    rw [ht, Multiset.mem_cons] at hb
    exact hb.resolve_left (Ne.symm hne)
  have hpos : 0 < t.countP fun c => key c = k := Multiset.countP_pos.2 ⟨b, hbt, hkb⟩
  have hle : tokens key hold k x ≤ 1 := (hp x).trans (by split_ifs <;> omega)
  have hcons := Multiset.countP_cons_of_pos (p := fun c => key c = k) t hka
  rw [tokens, ht] at hle
  omega

theorem Solo.tokens_le_one (h : Solo key hold k) (z : ι) : tokens key hold k z ≤ 1 := by
  obtain ⟨p, hp⟩ := h
  have := hp z
  split_ifs at this <;> omega

theorem Solo.tokens_eq (h : Solo key hold (key a)) (ha : a ∈ hold x) (z : ι) :
    tokens key hold (key a) z = if z = x then 1 else 0 := by
  have hx := tokens_pos_of_mem key ha
  split_ifs with hz
  · subst hz
    have := h.tokens_le_one z
    omega
  · by_contra hne
    obtain ⟨b, hb, hkb⟩ := Multiset.countP_pos.1 (Nat.pos_of_ne_zero hne)
    exact hz (h.place_eq hb ha hkb rfl)

theorem Solo.of_tokens_eq (h : Solo key hold k)
    (same : ∀ z, tokens key hold' k z = tokens key hold k z) : Solo key hold' k := by
  obtain ⟨p, hp⟩ := h
  exact ⟨p, fun z => (same z).trans_le (hp z)⟩

/-- A token that moves on keeps `Solo`. -/
theorem Solo.move (h : Solo key hold k) {y : Option ι}
    (t : Transfer hold hold' a (some x) y) (hne : some x ≠ y) : Solo key hold' k := by
  by_cases hk : key a = k
  · subst hk
    have ha := t.mem_src hne
    have count := t.tokens_of_eq key
    refine ⟨y.getD x, fun z => ?_⟩
    have hz := count z
    rw [h.tokens_eq ha z] at hz
    cases y with
    | none =>
      simp only [Option.some.injEq, reduceCtorEq, if_false] at hz
      omega
    | some y =>
      simp only [Option.some.injEq] at hz
      simp only [Option.getD_some]
      omega
  · exact h.of_tokens_eq (t.tokens_of_ne hk)

theorem Solo.enter (h : Solo key hold k) (t : Transfer hold hold' a none (some y))
    (fresh : key a = k → Quiet key hold k) : Solo key hold' k := by
  by_cases hk : key a = k
  · subst hk
    have quiet := quiet_iff_tokens.1 (fresh rfl)
    refine ⟨y, fun z => ?_⟩
    have := t.tokens_of_eq key z
    simp only [reduceCtorEq, if_false, quiet z, Option.some.injEq] at this
    omega
  · exact h.of_tokens_eq (t.tokens_of_ne hk)

/-- Once the only token has left, the key is quiet. -/
theorem Solo.quiet_of_leave (h : Solo key hold (key a)) (t : Transfer hold hold' a (some x) none) :
    Quiet key hold' (key a) := by
  refine quiet_iff_tokens.2 fun z => ?_
  have := t.tokens_of_eq key z
  rw [h.tokens_eq (t.mem_src (by simp)) z] at this
  simp only [Option.some.injEq, reduceCtorEq, if_false] at this
  omega

/-- The first token with a key is the only one. -/
theorem Quiet.oneAt_of_enter (h : Quiet key hold (key a)) (t : Transfer hold hold' a none (some y)) :
    OneAt key hold' (key a) y := by
  intro z
  have := t.tokens_of_eq key z
  simpa [quiet_iff_tokens.1 h z] using this

theorem OneAt.of_tokens_eq (h : OneAt key hold k x)
    (same : ∀ z, tokens key hold' k z = tokens key hold k z) : OneAt key hold' k x :=
  fun z => (same z).trans (h z)

/-- A token that moves on remains the only one. -/
theorem OneAt.move (h : OneAt key hold k x) {u v : ι} (t : Transfer hold hold' a (some u) (some v))
    (hne : u ≠ v) : ∃ y, OneAt key hold' k y := by
  by_cases hk : key a = k
  · subst hk
    have hu : 0 < tokens key hold (key a) u := tokens_pos_of_mem key (t.mem_src (by simpa using hne))
    obtain rfl : u = x := by
      have := h u
      split_ifs at this with hux
      · exact hux
      · omega
    refine ⟨v, fun z => ?_⟩
    have hz := t.tokens_of_eq key z
    rw [h z] at hz
    simp only [Option.some.injEq] at hz
    omega
  · exact ⟨x, h.of_tokens_eq (t.tokens_of_ne hk)⟩

end Solo

end Custody
