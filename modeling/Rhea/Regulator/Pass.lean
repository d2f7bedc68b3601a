import Rhea.Regulator.NodeVar
import Rhea.Regulator.Jobs

/-!
# What a pass computes

`pass_acts_iff` says for which rates a pass acts on exactly the jobs whose rates are far apart.
`calculateRate?` is a pass in which every operation on `int` must have a result of that type and
every divisor must be non-zero; `calculateRate?_eq` compares it with the pass of the machine, and
`pass_defined_iff` says when it is defined.
-/

namespace Rhea.ByteflowRegulator

open Words

variable {conf : Configuration} {s s' : Server} {calls : List Call} {order : List UInt16}
  {k : UInt16} {outRate inRate : UInt32} {z : ℤ}

/-! ## The jobs that a pass acts on -/

theorem imbalanced_iff_gap (conf : Configuration) (hin : inRate ≠ 0) (hout : outRate ≠ 0) :
    imbalanced conf outRate inRate = true ↔ gap outRate inRate ≠ 2 ^ 31 ∧
      conf.updateVariation.toNat ≤ gap outRate inRate ∧
        gap outRate inRate + conf.updateVariation.toNat ≤ 2 ^ 32 := by
  have range := gap_lt outRate inRate
  rw [imbalanced_iff, wrappedGap]
  simp only [hin, hout, ne_eq, not_false_eq_true, true_and]
  omega

/-- The result of an operation on `int`. -/
def intResult (z : ℤ) : Option ℤ := if InSigned 32 z then some z else none

/-- The division by `BYTEFLOW_UPDATE_STEP`. -/
def divideStep (conf : Configuration) (z : ℤ) : Option ℤ :=
  if conf.updateStep = 0 then none else some (toUnsigned 64 z / conf.updateStep.toNat)

/-- `nodeVar`, when all its operations are defined. -/
def nodeVar? (conf : Configuration) (outRate inRate : UInt32) : Option ℤ := do
  let multiplier := (if inRate < outRate then AlterType.shrink else AlterType.grow).value
  let magnitude ← intResult |rateDifference outRate inRate|
  let difference ← intResult (magnitude - (conf.updateVariation.toNat / 2 : ℕ))
  let product ← intResult (difference * multiplier)
  let quotient ← divideStep conf product
  return toSigned 16 quotient

/-- `imbalanced`, when all its operations are defined. -/
def imbalanced? (conf : Configuration) (outRate inRate : UInt32) : Option Bool :=
  if inRate = 0 || outRate = 0 then some false
  else do
    let magnitude ← intResult |rateDifference outRate inRate|
    return (conf.updateVariation.toNat : ℤ) ≤ magnitude

/-- The body of the loop of `CalculateRate` after the locked section. -/
def jobRequests? (conf : Configuration) (jobId : UInt16) (outRate inRate : UInt32) :
    Option (List ResourceAllocation) := do
  if ← imbalanced? conf outRate inRate then
    let var ← nodeVar? conf outRate inRate
    return [⟨jobId, var⟩]
  else return []

/-- `calculateJobs`, when all operations are defined. -/
def Server.calculateJobs? (conf : Configuration) (s : Server) :
    List JobId → Option (Server × List ResourceAllocation)
  | [] => some (s, [])
  | job :: jobs => do
    let (outRate, inRate, s) := s.readRates job
    let own ← jobRequests? conf job.toUInt16 outRate inRate
    let (s, requests) ← s.calculateJobs? conf jobs
    return (s, own ++ requests)

/-- `Server::CalculateRate`, when all operations are defined. -/
def Server.calculateRate? (conf : Configuration) (s : Server) (order : List UInt16) :
    Option (Server × List ResourceAllocation) :=
  s.calculateJobs? conf (order.map UInt16.toUInt32)

theorem intResult_of_inSigned (h : InSigned 32 z) : intResult z = some z := if_pos h

theorem intResult_abs (outRate inRate : UInt32) :
    intResult |rateDifference outRate inRate| =
      if gap outRate inRate = 2 ^ 31 then none else some (wrappedGap outRate inRate : ℤ) := by
  have range := gap_lt outRate inRate
  rw [abs_rateDifference, intResult]
  by_cases h : gap outRate inRate = 2 ^ 31
  · rw [if_pos h, if_neg]
    unfold InSigned wrappedGap
    omega
  · rw [if_neg h, if_pos]
    unfold InSigned wrappedGap
    omega

theorem imbalanced?_eq (h : inRate ≠ 0 → outRate ≠ 0 → gap outRate inRate ≠ 2 ^ 31) :
    imbalanced? conf outRate inRate = some (imbalanced conf outRate inRate) := by
  unfold imbalanced? imbalanced
  by_cases hin : inRate = 0
  · simp [hin]
  by_cases hout : outRate = 0
  · simp [hout]
  have hgap := h hin hout
  rw [intResult_abs, if_neg hgap, absInt_rateDifference hgap]
  simp [hin, hout]

/-- For a job that is handed to `AlterNodes` only the divisor can be wrong. -/
theorem nodeVar?_eq (handed : imbalanced conf outRate inRate = true) :
    nodeVar? conf outRate inRate =
      if conf.updateStep = 0 then none else some (nodeVar conf outRate inRate) := by
  obtain ⟨-, -, hgap, hv⟩ := imbalanced_iff.1 handed
  have small := excess_lt conf hgap
  have difference : (wrappedGap outRate inRate : ℤ) - (conf.updateVariation.toNat / 2 : ℕ) =
      excess conf outRate inRate := by
    unfold excess
    omega
  have fits (a : AlterType) : InSigned 32 ((excess conf outRate inRate : ℤ) * a.value) := by
    unfold InSigned AlterType.value
    cases a <;> simp only <;> omega
  unfold nodeVar? nodeVar divideStep
  rw [intResult_abs, if_neg hgap, difference_eq hgap hv]
  simp only [Option.bind_eq_bind, Option.bind_some, difference]
  rw [intResult_of_inSigned ⟨by omega, by omega⟩]
  simp only [Option.bind_some, intResult_of_inSigned (fits _), toSigned_of_inSigned (fits _)]
  split_ifs <;> rfl

/-- The arithmetic for these rates is defined. -/
def ArithmeticDefined (conf : Configuration) (rates : Rates) : Prop :=
  rates.inRate ≠ 0 → rates.outRate ≠ 0 → gap rates.outRate rates.inRate ≠ 2 ^ 31 ∧
    (conf.updateStep = 0 → gap rates.outRate rates.inRate < conf.updateVariation.toNat ∨
      2 ^ 32 < gap rates.outRate rates.inRate + conf.updateVariation.toNat)

instance (conf : Configuration) (rates : Rates) : Decidable (ArithmeticDefined conf rates) :=
  inferInstanceAs (Decidable (_ → _ → _ ∧ _))

/-- The body of the loop is defined exactly for these rates, and then does what the machine does. -/
theorem jobRequests?_eq (conf : Configuration) (k : UInt16) (rates : Rates) :
    jobRequests? conf k rates.outRate rates.inRate =
      if ArithmeticDefined conf rates then some (rates.request conf k) else none := by
  obtain ⟨inRate, outRate⟩ := rates
  unfold jobRequests? Rates.request ArithmeticDefined
  simp only
  by_cases zero : inRate = 0 ∨ outRate = 0
  · have idle : imbalanced conf outRate inRate = false := by
      rcases zero with h | h <;> simp [imbalanced, h]
    rw [imbalanced?_eq fun hin hout => (zero.elim hin hout).elim, idle,
      if_pos fun hin hout => (zero.elim hin hout).elim]
    rfl
  obtain ⟨hin, hout⟩ := not_or.1 zero
  simp only [hin, hout, ne_eq, not_false_eq_true, true_implies]
  by_cases hgap : gap outRate inRate = 2 ^ 31
  · have stuck : imbalanced? conf outRate inRate = none := by
      unfold imbalanced?
      rw [intResult_abs, if_pos hgap]
      simp [hin, hout]
    rw [stuck, if_neg fun h => h.1 hgap]
    rfl
  rw [imbalanced?_eq fun _ _ => hgap]
  have threshold := imbalanced_iff_gap conf hin hout
  cases act : imbalanced conf outRate inRate with
  | false =>
    rw [act] at threshold
    have near := mt threshold.2 Bool.false_ne_true
    rw [if_pos ⟨hgap, fun _ => by omega⟩]
    rfl
  | true =>
    obtain ⟨-, reached, unwrapped⟩ := threshold.1 act
    simp only [Option.bind_eq_bind, Option.bind_some, if_true, nodeVar?_eq act]
    by_cases hstep : conf.updateStep = 0
    · rw [if_pos hstep, if_neg fun h => by have := h.2 hstep; omega]
      rfl
    · rw [if_neg hstep, if_pos ⟨hgap, fun h => absurd h hstep⟩]
      rfl

theorem calculateRate?_cons (conf : Configuration) (s : Server) (k : UInt16)
    (order : List UInt16) : s.calculateRate? conf (k :: order) =
      (jobRequests? conf k (s.rates k).outRate (s.rates k).inRate).bind fun own =>
        ((s.visited k).calculateRate? conf order).map fun next => (next.1, own ++ next.2) := by
  simp only [Server.calculateRate?, List.map_cons, Server.calculateJobs?, readRates_eq,
    UInt16.toUInt16_toUInt32, Server.rates, Option.bind_eq_bind, Option.map_eq_bind]
  rfl

/-- A pass whose operations are all defined is the pass of the machine. -/
theorem calculateRate?_eq (conf : Configuration) (s : Server)
    (h : ∀ k ∈ order, ArithmeticDefined conf (s.rates k)) :
    s.calculateRate? conf order = some (s.calculateRate conf order) := by
  induction order generalizing s with
  | nil => rfl
  | cons k order ih =>
    have rest : ∀ key ∈ order, ArithmeticDefined conf ((s.visited k).rates key) := fun key hkey =>
      (rates_visited s k key).symm ▸ h key (List.mem_cons_of_mem _ hkey)
    rw [calculateRate?_cons, jobRequests?_eq, if_pos (h k (List.mem_cons_self ..)), ih _ rest,
      calculateRate_cons, request_toList]
    rfl

theorem calculateRate?_isSome_iff (conf : Configuration) (s : Server) (order : List UInt16) :
    (s.calculateRate? conf order).isSome ↔ ∀ k ∈ order, ArithmeticDefined conf (s.rates k) := by
  constructor
  · intro h
    induction order generalizing s with
    | nil => simp
    | cons k order ih =>
      rw [calculateRate?_cons, jobRequests?_eq] at h
      split_ifs at h with own
      · have rest := ih (s.visited k) (by simpa using h)
        simp only [rates_visited] at rest
        exact List.forall_mem_cons.2 ⟨own, rest⟩
      · simp at h
  · intro h
    rw [calculateRate?_eq conf s h]
    rfl

/-- After every sequence of calls a pass is defined exactly when no job has reported rates that are
`2 ^ 31` apart and, with a step of zero, none has reported rates on which the pass would act. -/
theorem pass_defined_iff (h : run conf calls = some s) (horder : s.inRateMap.Iterates order) :
    (s.calculateRate? conf order).isSome ↔
      ∀ k, ArithmeticDefined conf (calls.foldl (Rates.after k) .none) := by
  rw [calculateRate?_isSome_iff]
  simp only [rates_exec h, rates_init]
  refine ⟨fun defined k => ?_, fun defined k _ => defined k⟩
  by_cases hk : k ∈ order
  · exact defined k hk
  · intro hin
    have current := rates_exec h k
    rw [rates_init] at current
    rw [← current] at hin
    exact absurd (horder.mem_iff.2 (mem_of_rate_ne_zero hin)) hk

/-- One job with rates of 2000 and 1000. -/
theorem pass_defined_iff_single :
    let calls : List Call := [.registerJob 0, .setInRate 0 2000, .setOutRate 0 1000]
    ∀ k, ArithmeticDefined {} (calls.foldl (Rates.after k) .none) := by
  intro calls
  have hrun := (Option.some_get (x := run {} calls) (by decide +kernel)).symm
  have horder : ((run {} calls).get (by decide +kernel)).inRateMap.Iterates [0] := by
    decide +kernel
  exact (pass_defined_iff hrun horder).1 (by decide +kernel)

/-- With a step of zero the pass divides by zero; with the default settings, rates of 1 and
`2 ^ 31 + 1` make it apply `abs` to the least `int`. -/
theorem not_pass_defined :
    let first : List Call := [.setInRate 0 2000, .setOutRate 0 1000]
    let second : List Call := [.setInRate 0 1, .setOutRate 0 2147483649]
    (∃ s, run { updateStep := 0 } first = some s ∧ s.inRateMap.Iterates [0] ∧
        s.calculateRate? { updateStep := 0 } [0] = none) ∧
      ∃ s, run {} second = some s ∧ s.inRateMap.Iterates [0] ∧
        s.calculateRate? {} [0] = none := by
  intro first second
  have hfirst := (Option.some_get (x := run { updateStep := 0 } first) (by decide +kernel)).symm
  have hsecond := (Option.some_get (x := run {} second) (by decide +kernel)).symm
  refine ⟨⟨_, hfirst, by decide +kernel, ?_⟩, ⟨_, hsecond, by decide +kernel, ?_⟩⟩
  · exact Option.not_isSome_iff_eq_none.1 (by decide +kernel)
  · exact Option.not_isSome_iff_eq_none.1 (by decide +kernel)

end Rhea.ByteflowRegulator
