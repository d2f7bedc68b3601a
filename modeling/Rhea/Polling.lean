import Rhea.Requests

/-!
# What is still to be waited for

`ClientPC.polls` are the parcels for which the call in progress of a client is still to find and erase
a state.  A call adds to them, a `Wait` that returns takes away, and nothing else changes them
(`Step.polls`), so what the clients have still to wait for and the returned `Wait`s never exceed what
was to be waited for (`polls_le`).
-/

namespace Rhea

open Transition

variable {D : Deployment} {files : Files} {acts more : List Action} {s s' : Sys} {a : Action}
  {m : Option Handover} {k : Key}

/-- Whether a call does nothing but wait. -/
def Call.onlyWaits : Call → Bool
  | .wait _ | .waitAll _ => true
  | .publish _ _ | .subscribe _ _ | .asyncSubscribe _ | .getSubscribedData _ _ => false

/-- A recorded state with which `Wait` is content. -/
abbrev ParcelState.Done (st : ParcelState) : Prop := st.status = .done

/-! ## Counting waits -/

/-- The number of parcels with key `k` in a list. -/
def countKey (k : Key) (l : List Parcel) : ℕ := l.countP fun p => p.key = k

/-- The parcels for which an action waits. -/
def Action.polls : Action → List Parcel
  | .call _ r => r.polls
  | _ => []

/-- The parcels of a list that are still to be waited for. -/
def AfterWait.rest : AfterWait → List Parcel
  | .waitAll rest _ => rest
  | .application | .subscribe _ => []

/-- The parcels that a client has still to wait for. -/
def ClientPC.polls : ClientPC → List Parcel
  | .subscribePush p _ => [p]
  | .waitGet p after | .waitErase p _ after => p :: after.rest
  | _ => []

/-- The parcel for which `Wait` is reported to return. -/
def Observation.acknowledged : Observation → Option Parcel
  | .waited p _ => some p
  | _ => none

@[simp] theorem countKey_nil (k : Key) : countKey k [] = 0 := rfl

theorem countKey_append (k : Key) (l l' : List Parcel) :
    countKey k (l ++ l') = countKey k l + countKey k l' := List.countP_append

theorem countKey_cons (k : Key) (p : Parcel) (l : List Parcel) :
    countKey k (p :: l) = countKey k l + if p.key = k then 1 else 0 := by
  simp [countKey, List.countP_cons]

theorem ClientPC.polls_waitAllNext (l : List Parcel) (states : List ParcelState) :
    (waitAllNext l states).polls = l := by
  cases l <;> rfl

theorem ClientPC.polls_waitReturn (p : Parcel) (v : ParcelState) (after : AfterWait) :
    (waitReturn p v after).polls = after.rest := by
  cases after with
  | waitAll rest states => exact polls_waitAllNext rest _
  | _ => rfl

theorem ClientPC.polls_clientStart (r : Call) : (clientStart r).polls = r.polls := by
  cases r with
  | waitAll l => exact polls_waitAllNext l []
  | _ => rfl

theorem ClientPC.polls_of_free {pc : ClientPC} (h : pc.free = true) : pc.polls = [] := by
  cases pc <;> first | rfl | simp [ClientPC.free] at h

/-- A step changes what one client has to wait for: a call adds to it, and a `Wait` that returns
takes away. -/
theorem Step.polls (h : Step D s a s' m) : ∃ c₀,
    (∀ c ≠ c₀, (s'.client c).polls = (s.client c).polls) ∧
      ∀ k, countKey k (s'.client c₀).polls +
          countKey k ((observe D s a).filterMap Observation.acknowledged) =
        countKey k (s.client c₀).polls + countKey k a.polls := by
  have quiet (other : ∀ c, a = .client c → ∀ p v after, s.client c ≠ .waitErase p v after) :
      (observe D s a).filterMap Observation.acknowledged = [] := by
    rw [List.filterMap_eq_nil_iff]
    intro o ho
    cases h.observed ho with
    | waited pc => exact absurd pc (other _ rfl _ _ _)
    | _ => rfl
  cases h
  case call c r free =>
    refine ⟨c, fun c' hc => by simp only [Function.update_of_ne hc], fun k => ?_⟩
    rw [quiet (by simp)]
    simp only [Function.update_self, ClientPC.polls_clientStart, ClientPC.polls_of_free free,
      Action.polls, countKey_nil, add_zero, zero_add]
  case waitErase c p v after pc =>
    refine ⟨c, fun c' hc => by simp only [Function.update_of_ne hc], fun k => ?_⟩
    simp only [Function.update_self, ClientPC.polls_waitReturn]
    simp [observe, pc, ClientPC.observe, ClientPC.polls, Action.polls, countKey_cons,
      Observation.acknowledged]
  case poll c p after pc pending =>
    refine ⟨c, fun _ _ => rfl, fun k => ?_⟩
    rw [quiet (by rintro _ ⟨⟩; simp [pc])]
    rfl
  case publishPut c _ _ pc | publishPush c _ pc | publishState c _ _ pc | subscribePush c _ _ pc
    | asyncPush c _ pc | pollDone c _ _ _ pc _ _ | subscribeGet c _ _ pc
    | subscribeErase c _ _ _ pc | getDataGet c _ _ _ pc _ | getDataMiss c _ _ pc _
    | getDataErase c _ _ pc | failPut c _ _ pc | failPush c _ pc | failState c _ _ pc
    | failSubscribe c _ _ pc | failAsync c _ pc =>
    refine ⟨c, fun c' hc => by simp only [Function.update_of_ne hc], fun k => ?_⟩
    rw [quiet (by rintro _ ⟨⟩ <;> simp [pc])]
    simp only [Function.update_self, pc]
    rfl
  all_goals
    refine ⟨0, fun _ _ => rfl, fun k => ?_⟩
    rw [quiet (by simp)]
    rfl

/-- In a run from a state in which no client waits for key `k`, what some clients have still to wait
for and the returned `Wait`s are not more than what was to be waited for. -/
theorem polls_le_of_exec (start : ∀ c, countKey k (s.client c).polls = 0)
    (hexec : exec (step D) s more = some s') (clients : Finset ℕ) :
    (∑ c ∈ clients, countKey k (s'.client c).polls) +
        countKey k ((trace (step D) (observe D) s more).filterMap Observation.acknowledged) ≤
      countKey k (more.flatMap Action.polls) := by
  refine @exec_invariant _ _ (step D) s (fun _ => True) (fun more s' => ∀ clients : Finset ℕ,
    (∑ c ∈ clients, countKey k (s'.client c).polls) +
        countKey k ((trace (step D) (observe D) s more).filterMap Observation.acknowledged) ≤
      countKey k (more.flatMap Action.polls)) (fun _ _ _ => trivial) ?_ ?_ _ _ hexec trivial clients
  · intro clients
    simp [start, trace]
  · intro more a t t' hexec _ inv hstep clients
    obtain ⟨_, h⟩ := step_sound hstep
    obtain ⟨c₀, others, change⟩ := h.polls
    -- the sum over the clients and the one that steps
    have before := inv (insert c₀ clients)
    rw [← Finset.add_sum_erase _ _ (Finset.mem_insert_self c₀ clients)] at before
    have wider : (∑ c ∈ clients, countKey k (t'.client c).polls) ≤
        ∑ c ∈ insert c₀ clients, countKey k (t'.client c).polls :=
      Finset.sum_le_sum_of_subset (Finset.subset_insert c₀ clients)
    rw [← Finset.add_sum_erase _ _ (Finset.mem_insert_self c₀ clients)] at wider
    have same : (∑ c ∈ (insert c₀ clients).erase c₀, countKey k (t'.client c).polls) =
        ∑ c ∈ (insert c₀ clients).erase c₀, countKey k (t.client c).polls :=
      Finset.sum_congr rfl fun c hc => by rw [others c (Finset.ne_of_mem_erase hc)]
    have own := change k
    rw [trace_snoc (step D) (observe D) hexec hstep, List.filterMap_append, countKey_append,
      List.flatMap_append, countKey_append, List.flatMap_singleton]
    omega

theorem polls_le (hrun : run D files acts = some s) (k : Key) (clients : Finset ℕ) :
    (∑ c ∈ clients, countKey k (s.client c).polls) +
        countKey k ((history D files acts).filterMap Observation.acknowledged) ≤
      countKey k (acts.flatMap Action.polls) :=
  polls_le_of_exec (fun _ => rfl) hrun clients

end Rhea
