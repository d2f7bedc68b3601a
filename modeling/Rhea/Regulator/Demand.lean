import Rhea.Regulator.Jobs

/-!
# What the regulator asks for in the long run

`RunInternal` makes one pass after the other.  A pass does not know what earlier passes have asked
for: as long as nothing is reported for a job, every pass asks for the same change once more
(`demand_of_quiet`).
-/

namespace Rhea.ByteflowRegulator

open Transition

variable {conf : Configuration} {s s' : Server} {call : Call} {calls more : List Call} {k : UInt16}

/-- The change in the number of nodes of a job that has been asked for in total. -/
def demand (k : UInt16) (requests : List ResourceAllocation) : ℤ :=
  ((requests.filter (·.jobId = k)).map ResourceAllocation.nodeVar).sum

theorem demand_append (k : UInt16) (requests requests' : List ResourceAllocation) :
    demand k (requests ++ requests') = demand k requests + demand k requests' := by
  simp [demand]

/-- Whether the call is a report, a registration or a finalisation of the job with key `k`. -/
def Call.names (k : UInt16) (call : Call) : Bool := call.jobId?.any fun j => j.toUInt16 = k

/-- What one pass asks for. -/
def Rates.change (conf : Configuration) (rates : Rates) : ℤ :=
  if imbalanced conf rates.outRate rates.inRate then nodeVar conf rates.outRate rates.inRate else 0

theorem sum_request (conf : Configuration) (k : UInt16) (rates : Rates) :
    ((rates.request conf k).map ResourceAllocation.nodeVar).sum = rates.change conf := by
  unfold Rates.request Rates.change
  split_ifs <;> simp [alterNodes]

theorem after_of_names (quiet : call.names k = false) (rates : Rates) :
    rates.after k call = rates := by
  cases h : call.jobId? with
  | none =>
    cases call with
    | calculateRate order => rfl
    | registerJob | finalizeJob | setInRate | setOutRate => simp [Call.jobId?] at h
  | some j =>
    apply after_of_ne h
    simpa [Call.names, h] using quiet

/-- The view asks for the same change at every pass. -/
theorem sum_sent (quiet : ∀ call ∈ more, call.names k = false) (rates : Rates) :
    ((rates.sent conf k more).map ResourceAllocation.nodeVar).sum =
      more.countP Call.isPass * rates.change conf := by
  induction more with
  | nil => simp [Rates.sent]
  | cons call more ih =>
    have rest := ih fun call' hcall => quiet call' (List.mem_cons_of_mem _ hcall)
    have same := after_of_names (quiet call List.mem_cons_self) rates
    cases call with
    | calculateRate order =>
      rw [Rates.sent, List.map_append, List.sum_append, sum_request, rest,
        List.countP_cons_of_pos rfl]
      push_cast
      ring
    | registerJob | finalizeJob | setInRate | setOutRate =>
      rw [List.countP_cons_of_neg (by simp [Call.isPass]), ← rest]
      show ((Rates.sent conf k (rates.after k _) more).map ResourceAllocation.nodeVar).sum = _
      rw [same]

/-- The demand for a job grows by the same change at every pass, whatever has been asked for before and
whatever is reported for other jobs, as long as nothing is reported for this one. -/
theorem demand_of_quiet (h : run conf calls = some s) (h' : run conf (calls ++ more) = some s')
    (quiet : ∀ call ∈ more, call.names k = false) :
    demand k (sent conf (calls ++ more)) =
      demand k (sent conf calls) + more.countP Call.isPass * (s.rates k).change conf := by
  have hmore : exec (Server.step conf) s more = some s' := by
    obtain ⟨m, hm, hmore⟩ := (exec_append_eq_some _).1 h'
    rwa [Option.some.inj (h.symm.trans hm)]
  rw [sent, trace_append _ _ _ h, demand_append, ← sum_sent quiet, ← sent_filter hmore]
  rfl

/-- Two passes, with a registration of another job in between. -/
theorem demand_of_quiet_two :
    let calls : List Call := [.registerJob 0, .setInRate 0 2000, .setOutRate 0 1000]
    let more : List Call := [.calculateRate [0], .registerJob 1, .calculateRate [1, 0]]
    demand 0 (sent {} (calls ++ more)) = 380 := by
  intro calls more
  have h := (Option.some_get (x := run {} calls) (by decide +kernel)).symm
  have h' := (Option.some_get (x := run {} (calls ++ more)) (by decide +kernel)).symm
  rw [demand_of_quiet h h' (by decide +kernel)]
  decide +kernel

end Rhea.ByteflowRegulator
