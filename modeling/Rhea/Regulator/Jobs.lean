import Rhea.Regulator.Server

/-!
# One job of the regulator

The abstract view of a job is its pair of rates.  `rates_step` and `sent_filter` say that the
server, seen through the key of one job, is a machine on such pairs that ignores passes and the
other keys.  The results on runs follow: requests are computed from the last reported rates
(`request_of_current_rates`), jobs do not interfere (`jobs_isolated`) and passes do not change what
later passes ask for (`passes_unobserved`).
-/

namespace Rhea.ByteflowRegulator

/-- The job id that a call names. -/
def Call.jobId? : Call → Option JobId
  | .registerJob jobId | .finalizeJob jobId | .setInRate jobId _ | .setOutRate jobId _ => some jobId
  | .calculateRate _ => none

/-- The rates of a job; zero stands for a missing one as well. -/
@[ext] structure Rates where
  inRate : UInt32
  outRate : UInt32
  deriving DecidableEq

/-- No rate has been reported. -/
def Rates.none : Rates := ⟨0, 0⟩

/-- The rates of the job with key `k` after a call. -/
def Rates.after (k : UInt16) (rates : Rates) : Call → Rates
  | .registerJob jobId | .finalizeJob jobId => if jobId.toUInt16 = k then .none else rates
  | .setInRate jobId inRate => if jobId.toUInt16 = k then ⟨inRate, rates.outRate⟩ else rates
  | .setOutRate jobId outRate => if jobId.toUInt16 = k then ⟨rates.inRate, outRate⟩ else rates
  | .calculateRate _ => rates

/-- The request that a pass sends for a job. -/
def Rates.request (conf : Configuration) (k : UInt16) (rates : Rates) : List ResourceAllocation :=
  if imbalanced conf rates.outRate rates.inRate then
    [alterNodes conf k rates.outRate rates.inRate]
  else []

/-- What is sent for a job during a sequence of calls. -/
def Rates.sent (conf : Configuration) (k : UInt16) : Rates → List Call → List ResourceAllocation
  | _, [] => []
  | rates, .calculateRate _ :: calls => rates.request conf k ++ Rates.sent conf k rates calls
  | rates, call :: calls => Rates.sent conf k (rates.after k call) calls

/-- The view of one job. -/
def Server.rates (s : Server) (k : UInt16) : Rates := ⟨s.inRateMap.rate k, s.outRateMap.rate k⟩

variable {conf : Configuration} {s s' t t' : Server} {call : Call} {calls calls' : List Call}
  {order order' : List UInt16} {k : UInt16} {j : JobId} {r : ResourceAllocation}

/-! ## The view is kept by every call -/

@[simp] theorem rates_init (k : UInt16) : Server.init.rates k = .none := rfl

theorem rates_calculateRate (conf : Configuration) (s : Server) (order : List UInt16) (k : UInt16) :
    (s.calculateRate conf order).1.rates k = s.rates k := by
  obtain ⟨inRate, outRate⟩ := rate_calculateRate conf s order k
  exact Rates.ext inRate outRate

theorem rates_visited (s : Server) (key k : UInt16) : (s.visited key).rates k = s.rates k := by
  simp only [Server.rates, Server.visited, rate_subscript]

/-- A call changes the rates of a job as the view says. -/
theorem rates_step (h : s.step conf call = some s') (k : UInt16) :
    s'.rates k = (s.rates k).after k call := by
  cases call with
  | registerJob jobId | finalizeJob jobId =>
    obtain rfl := Option.some.inj h
    simp only [Server.rates, Server.registerJob, Server.finalizeJob, rate_assign, Rates.after,
      Rates.none, eq_comm (a := k)]
    split_ifs <;> rfl
  | setInRate jobId inRate =>
    obtain rfl := Option.some.inj h
    simp only [Server.rates, Server.setInRate, rate_assign, Rates.after, eq_comm (a := k)]
    split_ifs <;> rfl
  | setOutRate jobId outRate =>
    obtain rfl := Option.some.inj h
    simp only [Server.rates, Server.setOutRate, rate_assign, Rates.after, eq_comm (a := k)]
    split_ifs <;> rfl
  | calculateRate order =>
    simp only [Server.step] at h
    split_ifs at h with horder
    obtain rfl := Option.some.inj h
    exact rates_calculateRate conf s order k

theorem rates_exec (h : Transition.exec (Server.step conf) s calls = some s') (k : UInt16) :
    s'.rates k = calls.foldl (Rates.after k) (s.rates k) := by
  induction calls generalizing s with
  | nil =>
    obtain rfl := Option.some.inj h
    rfl
  | cons call calls ih =>
    simp only [Transition.exec, Option.bind_eq_some_iff] at h
    obtain ⟨m, hm, h⟩ := h
    rw [ih h, List.foldl_cons, rates_step hm]

theorem request_toList (conf : Configuration) (s : Server) (k : UInt16) :
    (request conf s k).toList = (s.rates k).request conf k := by
  unfold request Rates.request Server.rates
  split_ifs <;> simp_all

/-- What a run sends for a job is what the view sends. -/
theorem sent_filter (h : Transition.exec (Server.step conf) s calls = some s') (k : UInt16) :
    (Transition.trace (Server.step conf) (Server.requests conf) s calls).filter (·.jobId = k) =
      (s.rates k).sent conf k calls := by
  induction calls generalizing s with
  | nil => rfl
  | cons call calls ih =>
    simp only [Transition.exec, Option.bind_eq_some_iff] at h
    obtain ⟨m, hm, h⟩ := h
    rw [Transition.trace, hm, Option.elim_some, List.filter_append, ih h, rates_step hm]
    cases call with
    | registerJob | finalizeJob | setInRate | setOutRate => rfl
    | calculateRate order =>
      simp only [Server.step] at hm
      split_ifs at hm with horder
      simp only [Server.requests, requests_filter conf horder, request_toList, Rates.sent,
        Rates.after]

/-! ## Requests are computed from the current rates -/

/-- A registration or a finalisation of the job. -/
def Call.Resets (j : JobId) (call : Call) : Prop := call = .registerJob j ∨ call = .finalizeJob j

/-- `value` is the last one that was reported through `set` since the job was last registered or
finalised. -/
def LastReport (j : JobId) (set : UInt32 → Call) (value : UInt32) (calls : List Call) : Prop :=
  ∃ before later, calls = before ++ set value :: later ∧
    ∀ call ∈ later, ¬ call.Resets j ∧ ∀ other, call ≠ set other

/-- The jobs of the calls have ids of 16 bits. -/
def Short (calls : List Call) : Prop :=
  ∀ call ∈ calls, ∀ i ∈ call.jobId?, i.toNat < 2 ^ 16

theorem toUInt16_inj {i : JobId} (hi : i.toNat < 2 ^ 16) (hj : j.toNat < 2 ^ 16)
    (h : i.toUInt16 = j.toUInt16) : i = j := by
  have key := congrArg UInt16.toNat h
  rw [UInt32.toNat_toUInt16, UInt32.toNat_toUInt16, Nat.mod_eq_of_lt hi, Nat.mod_eq_of_lt hj] at key
  exact UInt32.toNat_inj.1 key

theorem LastReport.snoc {set : UInt32 → Call} {value : UInt32} (h : LastReport j set value calls)
    (reset : ¬ call.Resets j) (other : ∀ other, call ≠ set other) :
    LastReport j set value (calls ++ [call]) := by
  obtain ⟨before, later, rfl, quiet⟩ := h
  refine ⟨before, later ++ [call], by simp, fun c hc => ?_⟩
  rcases List.mem_append.1 hc with hc | hc
  · exact quiet c hc
  · obtain rfl := List.mem_singleton.1 hc
    exact ⟨reset, other⟩

theorem LastReport.last (j : JobId) (set : UInt32 → Call) (value : UInt32) (calls : List Call) :
    LastReport j set value (calls ++ [set value]) :=
  ⟨calls, [], rfl, fun _ h => absurd h List.not_mem_nil⟩

theorem last_rates (short : Short calls) (hj : j.toNat < 2 ^ 16) :
    let rates := calls.foldl (Rates.after j.toUInt16) .none
    (rates.inRate ≠ 0 → LastReport j (.setInRate j) rates.inRate calls) ∧
      (rates.outRate ≠ 0 → LastReport j (.setOutRate j) rates.outRate calls) := by
  induction calls using List.reverseRecOn with
  | nil => exact ⟨fun h => absurd rfl h, fun h => absurd rfl h⟩
  | append_singleton calls call ih =>
    obtain ⟨inRate, outRate⟩ := ih fun c hc => short c (List.mem_append_left _ hc)
    have name : ∀ i ∈ call.jobId?, i.toUInt16 = j.toUInt16 → i = j := fun i hi =>
      toUInt16_inj (short call (by simp) i hi) hj
    simp only [List.foldl_append, List.foldl_cons, List.foldl_nil]
    generalize calls.foldl (Rates.after j.toUInt16) .none = rates at *
    cases call with
    | registerJob i | finalizeJob i =>
      by_cases hi : i.toUInt16 = j.toUInt16
      · simp [Rates.after, hi, Rates.none]
      · have other : i ≠ j := fun h => hi (congrArg _ h)
        simp only [Rates.after, hi, if_false]
        exact ⟨fun h => (inRate h).snoc (by simp [Call.Resets, other]) (by simp),
          fun h => (outRate h).snoc (by simp [Call.Resets, other]) (by simp)⟩
    | setInRate i a =>
      by_cases hi : i.toUInt16 = j.toUInt16
      · obtain rfl := name i rfl hi
        simp only [Rates.after, if_true]
        exact ⟨fun _ => .last ..,
          fun h => (outRate h).snoc (by simp [Call.Resets]) (by simp)⟩
      · have other : i ≠ j := fun h => hi (congrArg _ h)
        simp only [Rates.after, hi, if_false]
        exact ⟨fun h => (inRate h).snoc (by simp [Call.Resets]) (by simp [other]),
          fun h => (outRate h).snoc (by simp [Call.Resets]) (by simp)⟩
    | setOutRate i b =>
      by_cases hi : i.toUInt16 = j.toUInt16
      · obtain rfl := name i rfl hi
        simp only [Rates.after, if_true]
        exact ⟨fun h => (inRate h).snoc (by simp [Call.Resets]) (by simp),
          fun _ => .last ..⟩
      · have other : i ≠ j := fun h => hi (congrArg _ h)
        simp only [Rates.after, hi, if_false]
        exact ⟨fun h => (inRate h).snoc (by simp [Call.Resets]) (by simp),
          fun h => (outRate h).snoc (by simp [Call.Resets]) (by simp [other])⟩
    | calculateRate order =>
      simp only [Rates.after]
      exact ⟨fun h => (inRate h).snoc (by simp [Call.Resets]) (by simp),
        fun h => (outRate h).snoc (by simp [Call.Resets]) (by simp)⟩

/-- A pass sends at most one request for a job, computed from the rates that were last reported since
the job was registered or finalised, and both are there. -/
theorem request_of_current_rates (short : Short calls) (hj : j.toNat < 2 ^ 16)
    (h : run conf calls = some s) (horder : s.inRateMap.Iterates order)
    (hr : r ∈ (s.calculateRate conf order).2) (job : r.jobId = j.toUInt16) :
    ∃ a b, LastReport j (.setInRate j) a calls ∧ LastReport j (.setOutRate j) b calls ∧
      a ≠ 0 ∧ b ≠ 0 ∧
      r.nodeVar = nodeVar conf b a ∧
      (s.calculateRate conf order).2.filter (·.jobId = j.toUInt16) = [r] := by
  have mine : r ∈ (s.calculateRate conf order).2.filter (·.jobId = j.toUInt16) :=
    List.mem_filter.2 ⟨hr, decide_eq_true job⟩
  have only := requests_filter conf horder j.toUInt16
  rw [request_toList] at only
  have current := rates_exec h j.toUInt16
  obtain ⟨inRate, outRate⟩ := last_rates short hj
  rw [rates_init] at current
  rw [← current] at inRate outRate
  rw [only] at mine ⊢
  unfold Rates.request at mine ⊢
  split_ifs at mine ⊢ with act
  · obtain rfl := List.mem_singleton.1 mine
    simp only [imbalanced, Bool.and_eq_true, Bool.not_eq_true', Bool.or_eq_false_iff,
      decide_eq_false_iff_not] at act
    exact ⟨_, _, inRate act.1.1, outRate act.1.2, act.1.1, act.1.2, rfl, rfl⟩
  · exact absurd mine List.not_mem_nil

/-- A job that was registered and then reported rates of 2000 and 1000. -/
theorem request_of_current_rates_grow :
    let calls : List Call := [.registerJob 0, .setInRate 0 2000, .setOutRate 0 1000]
    ∃ a b, LastReport 0 (.setInRate 0) a calls ∧ LastReport 0 (.setOutRate 0) b calls ∧
      nodeVar {} b a = 190 := by
  intro calls
  have hrun := (Option.some_get (x := run {} calls) (by decide +kernel)).symm
  have horder : ((run {} calls).get (by decide +kernel)).inRateMap.Iterates [0] := by
    decide +kernel
  have hr : (⟨0, 190⟩ : ResourceAllocation) ∈
      (((run {} calls).get (by decide +kernel)).calculateRate {} [0]).2 := by
    decide +kernel
  obtain ⟨a, b, inRate, outRate, -, -, eq, -⟩ :=
    request_of_current_rates (j := 0) (by simp [Short, calls, Call.jobId?]) (by decide) hrun horder hr rfl
  exact ⟨a, b, inRate, outRate, eq.symm⟩

/-! ## Jobs do not interfere -/

/-- The calls that stay when the other jobs are deleted. -/
def Call.concerns (j : JobId) (call : Call) : Bool := call.jobId?.all (· = j)

/-- A call without the order in which a pass finds the jobs. -/
def Call.forgetOrder : Call → Call
  | .calculateRate _ => .calculateRate []
  | call => call

theorem sent_forgetOrder (conf : Configuration) (k : UInt16) (rates : Rates) (calls : List Call) :
    rates.sent conf k (calls.map Call.forgetOrder) = rates.sent conf k calls := by
  induction calls generalizing rates with
  | nil => rfl
  | cons call calls ih =>
    cases call with
    | registerJob | finalizeJob | setInRate | setOutRate => exact ih _
    | calculateRate order => simp only [List.map_cons, Call.forgetOrder, Rates.sent, ih]

/-- The view ignores calls that name other keys. -/
theorem after_of_ne {i : JobId} (name : call.jobId? = some i) (h : i.toUInt16 ≠ k) (rates : Rates) :
    rates.after k call = rates := by
  cases call with
  | registerJob | finalizeJob | setInRate | setOutRate =>
    obtain rfl := Option.some.inj name
    exact if_neg h
  | calculateRate => rfl

theorem sent_concerns (conf : Configuration) (rates : Rates)
    (distinct : ∀ call ∈ calls, ∀ i ∈ call.jobId?, i.toUInt16 = j.toUInt16 → i = j) :
    rates.sent conf j.toUInt16 (calls.filter (·.concerns j)) = rates.sent conf j.toUInt16 calls := by
  induction calls generalizing rates with
  | nil => rfl
  | cons call calls ih =>
    have rest := fun rates => ih rates fun c hc => distinct c (List.mem_cons_of_mem _ hc)
    have name := distinct call (List.mem_cons_self ..)
    by_cases keep : call.concerns j = true
    · rw [List.filter_cons_of_pos keep]
      cases call with
      | registerJob | finalizeJob | setInRate | setOutRate => exact rest _
      | calculateRate order => simp only [Rates.sent, rest]
    · rw [List.filter_cons_of_neg keep, rest]
      cases call with
      | registerJob i | finalizeJob i | setInRate i | setOutRate i =>
        have other : i.toUInt16 ≠ j.toUInt16 := fun h => keep (by
          simp [Call.concerns, Call.jobId?, name i rfl h])
        rw [Rates.sent, after_of_ne rfl other]
        simp
      | calculateRate => exact absurd rfl keep

/-- What is sent for a job does not depend on the calls of other jobs, if none of them has the key of
the job. -/
theorem jobs_isolated
    (distinct : ∀ call ∈ calls, ∀ i ∈ call.jobId?, i.toUInt16 = j.toUInt16 → i = j)
    (h : run conf calls = some s) (h' : run conf calls' = some s')
    (deleted : calls'.map Call.forgetOrder =
      (calls.filter (·.concerns j)).map Call.forgetOrder) :
    (sent conf calls).filter (·.jobId = j.toUInt16) =
      (sent conf calls').filter (·.jobId = j.toUInt16) := by
  rw [sent_filter h, sent_filter h', ← sent_concerns conf _ distinct, ← sent_forgetOrder,
    ← deleted, sent_forgetOrder]

/-- Two jobs, of which the first is asked to grow. -/
theorem jobs_isolated_two :
    let own : List Call := [.registerJob 0, .setInRate 0 2000, .setOutRate 0 1000]
    let other : List Call := [.registerJob 1, .setInRate 1 5000]
    (sent {} (own ++ other ++ [.calculateRate [1, 0]])).filter (·.jobId = 0) =
      (sent {} (own ++ [.calculateRate [0]])).filter (·.jobId = 0) := by
  intro own other
  have hrun := (Option.some_get (x := run {} (own ++ other ++ [.calculateRate [1, 0]]))
    (by decide +kernel)).symm
  have hrun' := (Option.some_get (x := run {} (own ++ [.calculateRate [0]]))
    (by decide +kernel)).symm
  have distinct : ∀ call ∈ own ++ other ++ [.calculateRate [1, 0]], ∀ i ∈ call.jobId?,
      i.toUInt16 = (0 : JobId).toUInt16 → i = 0 := by
    simp [own, other, Call.jobId?]
  exact jobs_isolated distinct hrun hrun' (by decide +kernel)

/-- The jobs 0 and 65536 share an entry: a request for job 0 is sent with an output rate that only
the other one has reported, and without the calls of the other none is sent. -/
theorem not_jobs_isolated :
    let own : List Call := [.setInRate 0 2000]
    let other : List Call := [.setOutRate 65536 1000]
    (run {} (own ++ other ++ [.calculateRate [0]])).isSome ∧
      (run {} (own ++ [.calculateRate [0]])).isSome ∧
      (own ++ other ++ [Call.calculateRate [0]]).filter (·.concerns 0) =
        own ++ [.calculateRate [0]] ∧
      (sent {} (own ++ other ++ [.calculateRate [0]])).filter (·.jobId = 0) ≠
        (sent {} (own ++ [.calculateRate [0]])).filter (·.jobId = 0) := by
  decide +kernel

/-! ## Passes do not change what later passes ask for -/

/-- A call of `CalculateRate`. -/
def Call.isPass : Call → Bool
  | .calculateRate _ => true
  | _ => false

theorem foldl_after_filter (k : UInt16) (rates : Rates) (calls : List Call) :
    (calls.filter (!·.isPass)).foldl (Rates.after k) rates = calls.foldl (Rates.after k) rates := by
  induction calls generalizing rates with
  | nil => rfl
  | cons call calls ih => cases call <;> exact ih _

/-- Two passes before which the same calls have been made, up to passes, send the same requests. -/
theorem passes_unobserved (same : calls.filter (!·.isPass) = calls'.filter (!·.isPass))
    (h : run conf calls = some s) (h' : run conf calls' = some s')
    (horder : s.inRateMap.Iterates order) (horder' : s'.inRateMap.Iterates order') :
    (s.calculateRate conf order).2.Perm (s'.calculateRate conf order').2 := by
  rw [List.perm_iff_count]
  intro r
  have count (requests : List ResourceAllocation) :
      requests.count r = (requests.filter (·.jobId = r.jobId)).count r :=
    (List.count_filter (p := fun q : ResourceAllocation => q.jobId = r.jobId) (decide_eq_true rfl)).symm
  have view : s.rates r.jobId = s'.rates r.jobId := by
    rw [rates_exec h, rates_exec h', ← foldl_after_filter, same, foldl_after_filter]
  rw [count (s.calculateRate conf order).2, count (s'.calculateRate conf order').2,
    requests_filter conf horder, requests_filter conf horder', request_toList, request_toList, view]

/-- A second pass in another order, after one that inserted an entry. -/
theorem passes_unobserved_twice :
    let calls : List Call := [.setInRate 0 2000, .setInRate 1 3000, .setOutRate 0 1000]
    ∃ s s', run {} calls = some s ∧ run {} (calls ++ [.calculateRate [0, 1]]) = some s' ∧
      (s.calculateRate {} [0, 1]).2.Perm (s'.calculateRate {} [1, 0]).2 := by
  intro calls
  have hrun := (Option.some_get (x := run {} calls) (by decide +kernel)).symm
  have hrun' := (Option.some_get (x := run {} (calls ++ [.calculateRate [0, 1]]))
    (by decide +kernel)).symm
  have same : calls.filter (!·.isPass) =
      (calls ++ [Call.calculateRate [0, 1]]).filter (!·.isPass) := by decide
  exact ⟨_, _, hrun, hrun', passes_unobserved same hrun hrun' (by decide +kernel)
    (by decide +kernel)⟩

end Rhea.ByteflowRegulator
