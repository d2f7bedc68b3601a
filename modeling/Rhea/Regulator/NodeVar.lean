import Rhea.Regulator.Server

/-!
# The arithmetic of the regulator

`gap` is the distance of the two rates as integers.  The conversion of the difference to `int` keeps
it below `2 ^ 31` only (`absInt_rateDifference`), and the division in `AlterNodes` is unsigned, so a
negative difference is divided as a number near `2 ^ 64` (`nodeVar_shrink`).
-/

namespace Rhea.ByteflowRegulator

open Words

variable {conf : Configuration} {outRate inRate : UInt32} {e : ℕ}

/-- `|out_rate - in_rate|` as integers. -/
def gap (outRate inRate : UInt32) : ℕ := ((outRate.toNat : ℤ) - inRate.toNat).natAbs

/-- What remains of the gap after the conversion to `int`: the distance to the next multiple of
`2 ^ 32`. -/
def wrappedGap (outRate inRate : UInt32) : ℕ :=
  min (gap outRate inRate) (2 ^ 32 - gap outRate inRate)

theorem gap_lt (outRate inRate : UInt32) : gap outRate inRate < 2 ^ 32 := by
  have := outRate.toNat_lt
  have := inRate.toNat_lt
  unfold gap
  omega

theorem rateDifference_eq (outRate inRate : UInt32) :
    rateDifference outRate inRate = toSigned 32 ((outRate.toNat : ℤ) - inRate.toNat) :=
  toSigned_toUnsigned (by decide) _

theorem abs_rateDifference (outRate inRate : UInt32) :
    |rateDifference outRate inRate| = wrappedGap outRate inRate := by
  have range := gap_lt outRate inRate
  rw [rateDifference_eq, Int.abs_eq_natAbs]
  unfold wrappedGap at *
  unfold gap at *
  generalize (outRate.toNat : ℤ) - inRate.toNat = z at *
  have wrapped : ∃ c, toSigned 32 z = c ∧ c.natAbs = min z.natAbs (2 ^ 32 - z.natAbs) := by
    rcases lt_or_ge z (-2 ^ 31) with below | above
    · exact ⟨z + 2 ^ 32, (toSigned_eq_iff ⟨by omega, by omega⟩).2 ⟨-1, by omega⟩, by omega⟩
    · rcases lt_or_ge z (2 ^ 31) with small | large
      · exact ⟨z, toSigned_of_inSigned ⟨by omega, by omega⟩, by omega⟩
      · exact ⟨z - 2 ^ 32, (toSigned_eq_iff ⟨by omega, by omega⟩).2 ⟨1, by omega⟩, by omega⟩
  obtain ⟨c, hc, habs⟩ := wrapped
  rw [hc, habs]

theorem absInt_rateDifference (h : gap outRate inRate ≠ 2 ^ 31) :
    absInt (rateDifference outRate inRate) = wrappedGap outRate inRate := by
  have range := gap_lt outRate inRate
  rw [absInt, abs_rateDifference]
  unfold wrappedGap
  exact toSigned_of_inSigned ⟨by omega, by omega⟩

theorem rateDifference_of_gap (h : gap outRate inRate = 2 ^ 31) :
    rateDifference outRate inRate = -2 ^ 31 := by
  rw [rateDifference_eq]
  unfold gap at h
  generalize (outRate.toNat : ℤ) - inRate.toNat = z at *
  rcases le_or_gt 0 z with pos | neg
  · exact (toSigned_eq_iff ⟨by omega, by omega⟩).2 ⟨1, by omega⟩
  · exact (toSigned_eq_iff ⟨by omega, by omega⟩).2 ⟨0, by omega⟩

theorem absInt_min : absInt (-2 ^ 31) = -2 ^ 31 := by decide

/-- When a pass hands a job to `AlterNodes`. -/
theorem imbalanced_iff : imbalanced conf outRate inRate = true ↔
    outRate ≠ 0 ∧ inRate ≠ 0 ∧ gap outRate inRate ≠ 2 ^ 31 ∧
      conf.updateVariation.toNat ≤ wrappedGap outRate inRate := by
  have threshold : (conf.updateVariation.toNat : ℤ) ≤ absInt (rateDifference outRate inRate) ↔
      gap outRate inRate ≠ 2 ^ 31 ∧ conf.updateVariation.toNat ≤ wrappedGap outRate inRate := by
    by_cases h : gap outRate inRate = 2 ^ 31
    · rw [rateDifference_of_gap h, absInt_min]
      simp only [h, ne_eq, not_true_eq_false, false_and, iff_false, not_le]
      omega
    · rw [absInt_rateDifference h]
      exact ⟨fun hv => ⟨h, by exact_mod_cast hv⟩, fun hv => by exact_mod_cast hv.2⟩
  simp only [imbalanced, Bool.and_eq_true, Bool.not_eq_true', Bool.or_eq_false_iff,
    decide_eq_false_iff_not, decide_eq_true_eq, threshold]
  tauto

/-! ## The number of nodes -/

/-- What `AlterNodes` divides by the step: the wrapped gap less half the threshold. -/
def excess (conf : Configuration) (outRate inRate : UInt32) : ℕ :=
  wrappedGap outRate inRate - conf.updateVariation.toNat / 2

theorem wrappedGap_lt (h : gap outRate inRate ≠ 2 ^ 31) : wrappedGap outRate inRate < 2 ^ 31 := by
  unfold wrappedGap
  omega

theorem excess_lt (conf : Configuration) (h : gap outRate inRate ≠ 2 ^ 31) : excess conf outRate inRate < 2 ^ 31 :=
  (Nat.sub_le ..).trans_lt (wrappedGap_lt h)

section Handed

variable (h : gap outRate inRate ≠ 2 ^ 31)
  (hv : conf.updateVariation.toNat ≤ wrappedGap outRate inRate)

include h hv

/-- The difference from which `node_var` is computed. -/
theorem difference_eq :
    toSigned 32 (absInt (rateDifference outRate inRate) - (conf.updateVariation.toNat / 2 : ℕ)) =
      excess conf outRate inRate := by
  have small := excess_lt conf h
  have eq : (wrappedGap outRate inRate : ℤ) - (conf.updateVariation.toNat / 2 : ℕ) =
      excess conf outRate inRate := by
    unfold excess
    omega
  rw [absInt_rateDifference h, eq]
  exact toSigned_of_inSigned ⟨by omega, by omega⟩

theorem nodeVar_grow (grow : ¬ inRate < outRate) :
    nodeVar conf outRate inRate =
      toSigned 16 (excess conf outRate inRate / conf.updateStep.toNat : ℕ) := by
  have small := excess_lt conf h
  have product : toSigned 32 ((excess conf outRate inRate : ℤ) * 1) =
      excess conf outRate inRate := by
    rw [mul_one]
    exact toSigned_of_inSigned ⟨by omega, by omega⟩
  have unsigned : toUnsigned 64 (excess conf outRate inRate : ℤ) = excess conf outRate inRate :=
    Int.emod_eq_of_lt (by omega) (by omega)
  simp only [nodeVar, difference_eq h hv, if_neg grow, AlterType.value, product, unsigned]
  rw [Int.natCast_ediv]

theorem nodeVar_shrink (shrink : inRate < outRate) :
    nodeVar conf outRate inRate = toSigned 16
      (((2 ^ 64 - excess conf outRate inRate) % 2 ^ 64 / conf.updateStep.toNat : ℕ) : ℤ) := by
  have small := excess_lt conf h
  have product : toSigned 32 ((excess conf outRate inRate : ℤ) * -1) =
      -(excess conf outRate inRate : ℤ) := by
    rw [mul_neg_one]
    exact toSigned_of_inSigned ⟨by omega, by omega⟩
  have unsigned : toUnsigned 64 (-(excess conf outRate inRate : ℤ)) =
      ((2 ^ 64 - excess conf outRate inRate) % 2 ^ 64 : ℕ) := by
    unfold toUnsigned
    omega
  simp only [nodeVar, difference_eq h hv, if_pos shrink, AlterType.value, product, unsigned]
  rw [Int.natCast_ediv]

end Handed

/-! ## The number that is meant -/

theorem wrappedGap_of_lt (h : gap outRate inRate < 2 ^ 31) :
    wrappedGap outRate inRate = gap outRate inRate := by
  unfold wrappedGap
  omega

theorem toSigned_of_le {q : ℕ} (h : q ≤ 32767) : toSigned 16 q = q :=
  toSigned_of_inSigned ⟨by omega, by omega⟩

/-- A number and its complement to `N`, divided by `S`. -/
theorem div_add_div_sub {N S D : ℕ} (hS : 0 < S) (hD : D ≤ N) :
    (N - D) / S + D / S + (if N % S < D % S then 1 else 0) = N / S := by
  obtain ⟨M, rfl⟩ := Nat.exists_eq_add_of_le' hD
  rw [Nat.add_sub_cancel, Nat.add_div hS]
  have mod : (M + D) % S = (M % S + D % S) % S := Nat.add_mod ..
  have hM := Nat.mod_lt M hS
  have hD' := Nat.mod_lt D hS
  by_cases carry : S ≤ M % S + D % S
  · have : (M % S + D % S) % S = M % S + D % S - S := by
      rw [Nat.mod_eq_sub_mod carry, Nat.mod_eq_of_lt (by omega)]
    rw [if_pos (by omega), if_pos carry]
  · have : (M % S + D % S) % S = M % S + D % S := Nat.mod_eq_of_lt (by omega)
    rw [if_neg (by omega), if_neg carry]

/-- `AlterNodes` computes the number of nodes that is meant, with the sign that is meant, when it asks
for more; when it gives some back, the unsigned division has to come out right.  With `q` the
quotient of the excess and the step, the result is `q` or `-q`. -/
theorem nodeVar_eq_iff (near : gap outRate inRate < 2 ^ 31)
    (hv : conf.updateVariation.toNat ≤ gap outRate inRate) (hS : 1 ≤ conf.updateStep.toNat)
    (hq : (gap outRate inRate - conf.updateVariation.toNat / 2) / conf.updateStep.toNat ≤ 32767) :
    nodeVar conf outRate inRate =
        (if inRate < outRate then -1 else 1) *
          (((gap outRate inRate - conf.updateVariation.toNat / 2) / conf.updateStep.toNat : ℕ) : ℤ) ↔
      (inRate < outRate → gap outRate inRate ≠ conf.updateVariation.toNat / 2 →
        2 ^ 64 / conf.updateStep.toNat % 2 ^ 16 =
          if 2 ^ 64 % conf.updateStep.toNat <
            (gap outRate inRate - conf.updateVariation.toNat / 2) % conf.updateStep.toNat
          then 1 else 0) := by
  have h : gap outRate inRate ≠ 2 ^ 31 := by omega
  have hv' : conf.updateVariation.toNat ≤ wrappedGap outRate inRate :=
    (wrappedGap_of_lt near).symm ▸ hv
  have eq : gap outRate inRate - conf.updateVariation.toNat / 2 = excess conf outRate inRate := by
    rw [excess, wrappedGap_of_lt near]
  have positive : gap outRate inRate ≠ conf.updateVariation.toNat / 2 ↔
      excess conf outRate inRate ≠ 0 := by
    rw [← eq]
    omega
  have small := excess_lt conf h
  rw [positive]
  rw [eq] at hq ⊢
  by_cases shrink : inRate < outRate
  · rw [nodeVar_shrink h hv' shrink, if_pos shrink]
    simp only [shrink, true_implies]
    generalize excess conf outRate inRate = D at *
    rcases Nat.eq_zero_or_pos D with rfl | pos
    · simp [toSigned]
    · have unwrapped : (2 ^ 64 - D) % 2 ^ 64 = 2 ^ 64 - D := Nat.mod_eq_of_lt (by omega)
      have split := div_add_div_sub (N := 2 ^ 64) hS (show D ≤ 2 ^ 64 by omega)
      rw [unwrapped, neg_one_mul]
      simp only [pos.ne', ne_eq, not_false_eq_true, true_implies]
      generalize (2 ^ 64 - D) / conf.updateStep.toNat = A at *
      generalize D / conf.updateStep.toNat = q at *
      generalize 2 ^ 64 / conf.updateStep.toNat = M at *
      rw [toSigned_eq_iff ⟨by omega, by omega⟩]
      split_ifs at split ⊢ <;> omega
  · rw [nodeVar_grow h hv' shrink, if_neg shrink, one_mul]
    simp only [shrink, false_implies, iff_true]
    exact toSigned_of_le hq

/-- A surplus of 1000 with the default threshold and a step of one. -/
theorem nodeVar_eq_iff_shrink :
    let conf : Configuration := { updateStep := 1 }
    nodeVar conf 2000 1000 = (if (1000 : UInt32) < 2000 then -1 else 1) *
      (((gap 2000 1000 - conf.updateVariation.toNat / 2) / conf.updateStep.toNat : ℕ) : ℤ) := by
  intro conf
  exact (@nodeVar_eq_iff conf 2000 1000 (by decide) (by decide)
    (by decide) (by decide)).2 (by decide)

/-- With the default settings, a job that writes 1000 more than it reads is asked to grow by 12917
nodes where 190 are meant to be given back. -/
theorem not_nodeVar_eq : nodeVar {} 2000 1000 = 12917 ∧
    (gap 2000 1000 - ({} : Configuration).updateVariation.toNat / 2) /
      ({} : Configuration).updateStep.toNat = 190 := by
  decide

/-! ## Larger deficits -/

/-- What a smaller deficit than that of the given rates is asked for: not more, and neither is asked
to shrink. -/
def DeficitLaw (conf : Configuration) (outRate inRate : UInt32) : Prop :=
  ∀ outRate' inRate' : UInt32, outRate' ≤ inRate' → imbalanced conf outRate' inRate' = true →
    conf.updateVariation.toNat ≤ inRate'.toNat - outRate'.toNat →
    inRate'.toNat - outRate'.toNat ≤ inRate.toNat - outRate.toNat →
    nodeVar conf outRate' inRate' ≤ nodeVar conf outRate inRate ∧
      0 ≤ nodeVar conf outRate' inRate' ∧ 0 ≤ nodeVar conf outRate inRate

theorem gap_of_le (h : outRate ≤ inRate) :
    gap outRate inRate = inRate.toNat - outRate.toNat := by
  have := UInt32.le_iff_toNat_le.1 h
  unfold gap
  omega

/-- The request for a deficit is the quotient, as far as it fits. -/
theorem nodeVar_of_deficit (h : outRate ≤ inRate) (handed : imbalanced conf outRate inRate = true) :
    nodeVar conf outRate inRate =
      toSigned 16 (excess conf outRate inRate / conf.updateStep.toNat : ℕ) := by
  obtain ⟨-, -, hgap, hv⟩ := imbalanced_iff.1 handed
  exact nodeVar_grow hgap hv (UInt32.not_lt.2 h)

/-- Every deficit below `2 ^ 31` occurs. -/
theorem exists_deficit (conf : Configuration) {d : ℕ} (hd : d < 2 ^ 31) (hv : conf.updateVariation.toNat ≤ d) :
    ∃ outRate inRate : UInt32, outRate ≤ inRate ∧ imbalanced conf outRate inRate = true ∧
      inRate.toNat - outRate.toNat = d ∧
      excess conf outRate inRate = d - conf.updateVariation.toNat / 2 := by
  have top : (UInt32.ofNat (d + 1)).toNat = d + 1 := by
    rw [UInt32.toNat_ofNat']
    exact Nat.mod_eq_of_lt (by omega)
  have le : (1 : UInt32) ≤ UInt32.ofNat (d + 1) := by
    rw [UInt32.le_iff_toNat_le, top]
    exact Nat.le_add_left ..
  have one : (1 : UInt32).toNat = 1 := rfl
  have eq : gap 1 (UInt32.ofNat (d + 1)) = d := by
    rw [gap_of_le le, top, one]
    omega
  have wrapped : wrappedGap 1 (UInt32.ofNat (d + 1)) = d := by
    rw [wrappedGap_of_lt (by rw [eq]; exact hd), eq]
  refine ⟨1, UInt32.ofNat (d + 1), le, imbalanced_iff.2 ⟨by decide, ?_, ?_, ?_⟩, ?_, ?_⟩
  · intro zero
    simp [zero] at top
  · omega
  · rw [wrapped]
    exact hv
  · rw [top, one]
    omega
  · rw [excess, wrapped]

/-- The law of deficits holds up to a given one exactly when the quotient stays in the range of
`int16_t` on the way and the conversion to `int` does not lower it. -/
theorem deficitLaw_iff (h : outRate ≤ inRate) (handed : imbalanced conf outRate inRate = true)
    (hv : conf.updateVariation.toNat ≤ inRate.toNat - outRate.toNat)
    (hS : 1 ≤ conf.updateStep.toNat) :
    DeficitLaw conf outRate inRate ↔
      (min (inRate.toNat - outRate.toNat) (2 ^ 31 - 1) - conf.updateVariation.toNat / 2) /
          conf.updateStep.toNat ≤ 32767 ∧
        (2 ^ 31 < inRate.toNat - outRate.toNat →
          (2 ^ 32 - (inRate.toNat - outRate.toNat) - conf.updateVariation.toNat / 2) /
              conf.updateStep.toNat =
            (2 ^ 31 - 1 - conf.updateVariation.toNat / 2) / conf.updateStep.toNat) := by
  obtain ⟨-, -, hgap, -⟩ := imbalanced_iff.1 handed
  have eq := gap_of_le h
  have range := gap_lt outRate inRate
  have threshold := conf.updateVariation.toNat_lt
  have requested := nodeVar_of_deficit h handed
  have excess_eq : excess conf outRate inRate =
      min (gap outRate inRate) (2 ^ 32 - gap outRate inRate) - conf.updateVariation.toNat / 2 := rfl
  rw [← eq] at hv ⊢
  constructor
  · intro law
    -- the quotients grow by at most one from deficit to deficit, so 32768 is not skipped
    have fits {d : ℕ} (hvd : conf.updateVariation.toNat ≤ d) (hd : d ≤ gap outRate inRate)
        (small : d < 2 ^ 31) :
        (d - conf.updateVariation.toNat / 2) / conf.updateStep.toNat ≤ 32767 := by
      by_contra large
      have reach : 32768 * conf.updateStep.toNat ≤ d - conf.updateVariation.toNat / 2 :=
        (Nat.le_div_iff_mul_le hS).1 (by omega)
      obtain ⟨out', in', le, handed', deficit, excess'⟩ :=
        exists_deficit conf
          (d := 32768 * conf.updateStep.toNat + conf.updateVariation.toNat / 2) (by omega) (by omega)
      have nonneg := (law out' in' le handed' (by omega) (by omega)).2.1
      rw [nodeVar_of_deficit le handed', excess', Nat.add_sub_cancel,
        Nat.mul_div_cancel _ hS] at nonneg
      exact absurd nonneg (by decide)
    refine ⟨fits (by omega) (by omega) (by omega), fun far => ?_⟩
    have top := fits (d := 2 ^ 31 - 1) (by omega) (by omega) (by omega)
    obtain ⟨out', in', le, handed', deficit, excess'⟩ :=
      exists_deficit conf (d := 2 ^ 31 - 1) (by omega) (by omega)
    have most := (law out' in' le handed' (by omega) (by omega)).1
    have wrapped : excess conf outRate inRate =
        2 ^ 32 - gap outRate inRate - conf.updateVariation.toNat / 2 := by
      rw [excess_eq]
      omega
    have less : excess conf outRate inRate / conf.updateStep.toNat ≤
        (2 ^ 31 - 1 - conf.updateVariation.toNat / 2) / conf.updateStep.toNat :=
      Nat.div_le_div_right (by omega)
    rw [nodeVar_of_deficit le handed', excess', toSigned_of_le top, requested,
      toSigned_of_le (less.trans top)] at most
    rw [← wrapped]
    exact le_antisymm less (by exact_mod_cast most)
  · rintro ⟨top, same⟩ out' in' le handed' hv' smaller
    obtain ⟨-, -, hgap', -⟩ := imbalanced_iff.1 handed'
    have eq' := gap_of_le le
    have excess_eq' : excess conf out' in' =
        min (gap out' in') (2 ^ 32 - gap out' in') - conf.updateVariation.toNat / 2 := rfl
    have less : excess conf out' in' / conf.updateStep.toNat ≤
        (min (gap outRate inRate) (2 ^ 31 - 1) - conf.updateVariation.toNat / 2) /
          conf.updateStep.toNat := Nat.div_le_div_right (by omega)
    have most : excess conf outRate inRate / conf.updateStep.toNat =
        (min (gap outRate inRate) (2 ^ 31 - 1) - conf.updateVariation.toNat / 2) /
          conf.updateStep.toNat := by
      rcases lt_or_gt_of_ne hgap with near | far
      · rw [excess_eq, min_eq_left (by omega), min_eq_left (by omega)]
      · rw [excess_eq, min_eq_right (by omega), min_eq_right (by omega), same far]
    rw [nodeVar_of_deficit le handed', requested, most, toSigned_of_le top,
      toSigned_of_le (less.trans top)]
    exact ⟨by exact_mod_cast less, Int.natCast_nonneg _, Int.natCast_nonneg _⟩

/-- The default settings keep the law for a deficit of 1000. -/
theorem deficitLaw_iff_default : DeficitLaw { updateStep := 5 } 1000 2000 :=
  (deficitLaw_iff (by decide) (by decide) (by decide) (by decide)).2 (by decide)

/-- A deficit of `2 ^ 32 - 101` is handed over, and asked for fewer nodes than one of 1000. -/
theorem not_deficitLaw : imbalanced {} 1 4294967196 = true ∧ ¬ DeficitLaw {} 1 4294967196 := by
  refine ⟨by decide, fun law => ?_⟩
  have less := (law 1000 2000 (by decide) (by decide) (by decide) (by decide)).1
  exact absurd less (by decide)

end Rhea.ByteflowRegulator
