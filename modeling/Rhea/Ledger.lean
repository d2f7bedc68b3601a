import Rhea.Requests
import Rhea.Lib.Census

/-!
# The ledger of the requests

At every moment of every run, whatever the keys, each requested parcel is accounted for exactly once:
a worker has recorded `DONE` for it, a failing operation of its client has dropped it, or it is at
one place on its way (`requests_accounted`).
-/

namespace Rhea

open Transition Custody

variable {D : Deployment} {files : Files} {acts : List Action} {s s' : Sys} {a : Action}
  {m : Option Handover}

/-- The parcel that an action requests. -/
def Action.requested : Action → List Parcel
  | .call _ r => (r.brings.map Prod.fst).toList
  | _ => []

/-- The parcel that a failing operation of a client gives up. -/
def dropped (s : Sys) : Action → List Parcel
  | .fail c =>
    match s.client c with
    | .publishPut p _ | .publishPush p | .subscribePush p _ | .asyncPush p => [p]
    | _ => []
  | _ => []

/-- The parcel for which `DONE` is reported. -/
def Observation.completed : Observation → Option Parcel
  | .recorded p .done => some p
  | _ => none

theorem Observation.mem_of_completed {p : Parcel} {h : List Observation}
    (hp : p ∈ h.filterMap completed) : .recorded p .done ∈ h := by
  obtain ⟨o, ho, hp⟩ := List.mem_filterMap.1 hp
  unfold completed at hp
  split at hp
  · obtain rfl := Option.some.inj hp
    exact ho
  · simp at hp

/-- Whether `DONE` is still to be recorded for the parcels at a place.  `IOFWriteQueueSourceTask`
records it before its `emit`. -/
def Deployment.awaits (D : Deployment) : Place → Bool
  | .writeSource i .emit => (D.writeJob i).source.linked
  | _ => true

/-- A parcel at a place where `DONE` is still to be recorded. -/
def Deployment.unfinished (D : Deployment) (x : Option Place) (p : Parcel) : Multiset Parcel :=
  if x.any D.awaits then {p} else 0

/-- The parcels on their way for which `DONE` is still to be recorded. -/
def Deployment.underway (D : Deployment) (w : Multiset (Place × Parcel)) : Multiset Parcel :=
  (w.filter fun t => D.awaits t.1 = true).map Prod.snd

theorem Deployment.underway_add (w v : Multiset (Place × Parcel)) :
    D.underway (w + v) = D.underway w + D.underway v := by
  simp only [underway, Multiset.filter_add, Multiset.map_add]

theorem Deployment.underway_placed (x : Option Place) (p : Parcel) :
    D.underway (placed x p) = D.unfinished x p := by
  cases x with
  | none => rfl
  | some x =>
    simp only [underway, Deployment.unfinished, placed, Option.elim_some, Multiset.filter_singleton,
      Option.any_some]
    by_cases h : D.awaits x = true <;> simp [h]

/-- What a step does to the ledger. -/
theorem Step.account (h : Step D s a s' m) :
    (↑a.requested : Multiset Parcel) + (m.elim 0 fun m => D.unfinished m.src m.parcel) =
      ↑((observe D s a).filterMap Observation.completed) + ↑(dropped s a) +
        (m.elim 0 fun m => D.unfinished m.dst m.parcel) := by
  cases h
  case call c r free =>
    cases r <;> simp [Action.requested, Call.brings, Call.handover, observe, dropped,
      Observation.completed, Deployment.unfinished, Deployment.awaits] <;> rfl
  case sourceNext i amount l pc ends =>
    simp [Action.requested, observe_sourceNext pc ends, dropped]
  case sourceStatus i p t rest pc =>
    cases hj : D.writeJob i <;> simp [Action.requested, observe, WriteSourcePC.observe, pc, dropped,
      Observation.completed, Deployment.unfinished, Deployment.awaits, hj, WriteJob.source,
      rheaWriteQueueSourceTask, iofWriteQueueSourceTask]
  case sourceEmit i p rest pc =>
    cases hl : (D.writeJob i).source.linked <;> simp [Action.requested, observe,
      WriteSourcePC.observe, pc, dropped, Deployment.unfinished, Deployment.awaits, Deployment.emitDst, hl]
  case sourceWrite i p d rest pc =>
    cases hl : (D.writeJob i).source.linked <;> simp [Action.requested, observe,
      WriteSourcePC.observe, pc, dropped, Deployment.unfinished, Deployment.awaits, hl,
      Observation.completed]
  all_goals simp [Action.requested, observe, ClientPC.observe, WriteSourcePC.observe, dropped,
    Observation.completed, Deployment.unfinished, Deployment.awaits, *]
  all_goals rfl

/-- A step brings the census up to date. -/
theorem Step.census {w : Multiset (Place × Parcel)} (h : Step D s a s' m) (c : Census s.hold w) :
    ∃ w', Census s'.hold w' ∧
      w' + (m.elim 0 fun m => placed m.src m.parcel) =
        w + (m.elim 0 fun m => placed m.dst m.parcel) := by
  cases m with
  | none => exact ⟨w, h.hold_eq ▸ c, rfl⟩
  | some m =>
    apply c.transfer h.transfer
    rcases h.handover_cases with ⟨-, -, y, -, -, hsrc, hdst⟩ | ⟨x, hsrc, hne⟩
    · simp [hsrc, hdst]
    · exact hsrc ▸ hne

theorem exists_census (hrun : run D files acts = some s) : ∃ w, Census s.hold w := by
  refine run_invariant (fun _ s => ∃ w, Census s.hold w) ⟨0, fun z => ?_⟩ ?_ hrun
  · rw [contents_zero, Multiset.eq_zero_iff_forall_notMem]
    exact fun p hp => quiet_init files p.key z p hp rfl
  · rintro acts a s s' m - - ⟨w, c⟩ h
    obtain ⟨w', c', -⟩ := h.census c
    exact ⟨w', c'⟩

/-- The balance of the ledger: what has been requested is what has been completed, dropped, or is on
its way. -/
theorem ledger (hrun : run D files acts = some s) :
    ∃ w, Census s.hold w ∧
      (↑(acts.flatMap Action.requested) : Multiset Parcel) =
        ↑((history D files acts).filterMap Observation.completed) +
          ↑(trace (step D) dropped (Sys.init files) acts) + D.underway w := by
  refine run_invariant (fun acts s => ∃ w, Census s.hold w ∧
    (↑(acts.flatMap Action.requested) : Multiset Parcel) =
      ↑((history D files acts).filterMap Observation.completed) +
        ↑(trace (step D) dropped (Sys.init files) acts) + D.underway w) ?_ ?_ hrun
  · refine ⟨0, fun z => ?_, rfl⟩
    rw [contents_zero, Multiset.eq_zero_iff_forall_notMem]
    exact fun p hp => quiet_init files p.key z p hp rfl
  · rintro acts a s s' m hrun hstep ⟨w, c, balance⟩ h
    obtain ⟨w', c', moved⟩ := h.census c
    refine ⟨w', c', ?_⟩
    have account := h.account
    have under : D.underway w' + (m.elim 0 fun m => D.unfinished m.src m.parcel) =
        D.underway w + (m.elim 0 fun m => D.unfinished m.dst m.parcel) := by
      have := congrArg D.underway moved
      rw [Deployment.underway_add, Deployment.underway_add] at this
      cases m with
      | none => exact this
      | some m => simpa only [Option.elim_some, Deployment.underway_placed] using this
    rw [history_snoc hrun hstep, trace_snoc (step D) dropped hrun hstep]
    simp only [List.flatMap_append, List.flatMap_singleton, List.filterMap_append,
      ← Multiset.coe_add, balance]
    generalize (m.elim 0 fun m => D.unfinished m.src m.parcel) = src at account under
    generalize (m.elim 0 fun m => D.unfinished m.dst m.parcel) = dst at account under
    generalize (↑((history D files acts).filterMap Observation.completed) : Multiset Parcel) = done
    generalize (↑(trace (step D) dropped (Sys.init files) acts) : Multiset Parcel) = given
    apply add_right_cancel (b := src)
    calc done + given + D.underway w + ↑a.requested + src
        = done + given + D.underway w + (↑a.requested + src) := by abel
      _ = done + given + (↑((observe D s a).filterMap Observation.completed) + ↑(dropped s a)) +
            (D.underway w + dst) := by rw [account]; abel
      _ = _ := by rw [← under]; abel

/-- Every request is accounted for exactly once: `DONE` has been recorded for it, a failing operation
has dropped it, or its parcel is at one place on its way. -/
theorem requests_accounted (hrun : run D files acts = some s) (p : Parcel) :
    ∃ w, Census s.hold w ∧
      (acts.flatMap Action.requested).count p =
        ((history D files acts).filterMap Observation.completed).count p +
          (trace (step D) dropped (Sys.init files) acts).count p + (D.underway w).count p := by
  obtain ⟨w, c, balance⟩ := ledger hrun
  have counted := congrArg (Multiset.count p) balance
  simp only [Multiset.count_add, Multiset.coe_count] at counted
  exact ⟨w, c, counted⟩

/-- A run of two requests on one key, one of which is dropped. -/
theorem requests_accounted_two :
    let p : Parcel := ⟨"f", 0, 1, 0, 0, .publish⟩
    let acts : List Action := [.call 0 (.publish p [97]), .client 0, .call 1 (.publish p [98]), .fail 1]
    ∃ s, run (.single .rhea) (fun _ => none) acts = some s ∧ ∃ w, Census s.hold w ∧
      (acts.flatMap Action.requested).count p =
        ((history (.single .rhea) (fun _ => none) acts).filterMap Observation.completed).count p +
          (trace (step (.single .rhea)) dropped (Sys.init fun _ => none) acts).count p +
            ((Deployment.single .rhea).underway w).count p := by
  intro p acts
  have hrun := (Option.some_get (x := run (.single .rhea) (fun _ => none) acts)
    (by decide +kernel)).symm
  exact ⟨_, hrun, requests_accounted hrun p⟩

end Rhea
