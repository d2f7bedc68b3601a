import Rhea.Requests

/-!
# The recorded status of a published parcel

`Publish` records `QUEUED` after the parcel has become visible to the workers.  The status of a
parcel goes backward in a run exactly when this `Put` comes after one of a worker
(`neverBackward_iff`).
-/

namespace Rhea

open Transition Custody

variable {D : Deployment} {files : Files} {acts : List Action} {s s' : Sys} {a : Action}
  {m : Option Handover} {k : Key} {p q : Parcel} {d : Bytes}

/-- At every step of the run, the status recorded for a key stays or grows, unless a `Wait` erases
it. -/
def NeverBackward (D : Deployment) (files : Files) (k : Key) (acts : List Action) : Prop :=
  ∀ pre a post s s' v, acts = pre ++ a :: post → run D files pre = some s → step D s a = some s' →
    s.parselState k = some v →
    (∃ c q r after, a = .client c ∧ s.client c = .waitErase q r after ∧ q.key = k) ∨
      ∃ v', s'.parselState k = some v' ∧ v.status ≤ v'.status

/-- Whenever `Publish` of the run records `QUEUED` for a key, no status is recorded for it. -/
def QueuedFirst (D : Deployment) (files : Files) (k : Key) (acts : List Action) : Prop :=
  ∀ pre c post s q t, acts = pre ++ .client c :: post → run D files pre = some s →
    s.client c = .publishState q t → q.key = k → s.parselState k = none

/-- The operation of a client is one of `Publish` on key `k`. -/
def ClientPC.Publishing (k : Key) (pc : ClientPC) : Prop :=
  ∃ q, q.key = k ∧
    (pc = .publishPush q ∨ (∃ t, pc = .publishState q t) ∨ ∃ e, pc = .publishPut q e)

theorem uses_of_clientStart {r : Call} (h : (clientStart r).Publishing k) : r.uses k = true := by
  obtain ⟨q, hk, hpc⟩ := h
  cases r with
  | publish p d => simp_all [clientStart, Call.uses]
  | waitAll l => cases l <;> simp [clientStart, waitAllNext] at hpc
  | _ => simp [clientStart] at hpc

theorem publishing_of_clientStep {c : ℕ} {sh sh' : Shared} {pc pc' : ClientPC}
    (hstep : clientStep D c sh pc = some (sh', pc')) (h : pc'.Publishing k) : pc.Publishing k := by
  obtain ⟨q, hk, hpc⟩ := h
  cases pc with
  | publishPut p e =>
    obtain ⟨-, rfl⟩ := Prod.mk.inj (Option.some.inj hstep)
    exact ⟨q, hk, .inr (.inr ⟨e, by simpa using hpc⟩)⟩
  | publishPush p =>
    obtain ⟨-, rfl⟩ := Prod.mk.inj (Option.some.inj hstep)
    exact ⟨q, hk, .inl (by simpa using hpc)⟩
  | waitErase p r after =>
    obtain ⟨-, rfl⟩ := Prod.mk.inj (Option.some.inj hstep)
    cases after with
    | waitAll rest states => cases rest <;> simp [waitReturn, waitAllNext] at hpc
    | _ => simp [waitReturn] at hpc
  | _ =>
    simp only [clientStep] at hstep
    try split at hstep
    all_goals try split_ifs at hstep
    all_goals simp at hstep
    all_goals obtain ⟨-, rfl⟩ := hstep
    all_goals simp at hpc

theorem not_publishing_of_clientFail {pc pc' : ClientPC} (hfail : clientFail pc = some pc') :
    ¬ pc'.Publishing k := by
  rintro ⟨q, hk, hpc⟩
  cases pc <;> simp [clientFail] at hfail <;> simp [← hfail] at hpc

theorem SourceTask.inProgress_le_status (job : WriteJob) : TaskStatus.inProgress ≤ job.source.status := by
  cases job <;> decide

theorem call_of_publishing (hrun : run D files acts = some s) {c : ℕ}
    (h : (s.client c).Publishing k) : ∃ r, .call c r ∈ acts ∧ r.uses k = true := by
  obtain ⟨q, hk, hpc⟩ := h
  rcases served hrun c with free | ⟨r, hr, hs⟩
  · rcases hpc with hpc | ⟨t, hpc⟩ | ⟨e, hpc⟩ <;> simp [hpc, ClientPC.free] at free
  · refine ⟨r, hr, ?_⟩
    rcases hpc with hpc | ⟨t, hpc⟩ | ⟨e, hpc⟩ <;> rw [hpc] at hs <;> cases hs <;> simp [Call.uses, hk]

/-- Until its collector records a status, no worker has recorded one for a parcel. -/
theorem status_le_queued (only : PublishOnly p d acts) (hrun : run D files acts = some s)
    {z : Place} (hz : p ∈ s.hold z) (early : z.progress ≤ 6) {v : ParcelState}
    (hv : s.parselState p.key = some v) : v.status ≤ .queued := by
  refine only.place_invariant
    (fun _ z s => z.progress ≤ 6 → ∀ v, s.parselState p.key = some v → v.status ≤ .queued)
    ?_ ?_ hrun hz early v hv
  · intro acts a s s' m z hrun _ only h hz unmoved inv early v hv
    rcases h.parselState_cases p.key with same | change
    · exact inv early v (same ▸ hv)
    · rw [hv] at change
      generalize hw : some v = w at change
      cases change with
      | publishState pc key =>
        cases hw
        exact le_rfl
      | waitErase pc key => simp at hw
      | _ pc key => exact absurd key (unmoved _ _ _ rfl)
  · intro acts a s s' x z hrun _ only h before early v hv
    rcases h.parselState_cases p.key with same | change
    · rw [same] at hv
      rcases h.handover_cases with ⟨c, r, y, rfl, hr, -, -⟩ | ⟨x, hsrc, -⟩
      · have unused := only.unused (a := .call c r)
          (Call.uses_of_brings (Call.brings_of_handover hr))
        rw [parselState_of_unused hrun unused] at hv
        simp at hv
      · obtain rfl : _ = some x := hsrc
        have := h.progress_eq
        exact (before x rfl).2 (by omega) v hv
    · rw [hv] at change
      generalize hw : some v = w at change
      generalize hm : some (Handover.mk p x (some z)) = l at change
      cases change with
      | sourceStatus pc key =>
        cases hm
        simp [Place.progress] at early
      | readStatus pc key =>
        cases hm
        have side := (only.of_append.eq_of_mem hrun (before _ rfl).1 rfl).2
        simp [Place.publishing] at side
      | _ => simp at hm

/-- While a client is publishing, `QUEUED` has not been recorded. -/
theorem inProgress_le_of_publishing (only : PublishOnly p d acts)
    (hrun : run D files acts = some s) {c : ℕ} (publishing : (s.client c).Publishing p.key)
    {v : ParcelState} (hv : s.parselState p.key = some v) : .inProgress ≤ v.status := by
  refine run_invariant_under (PublishOnly p d)
    (fun _ s => ∀ c v, (s.client c).Publishing p.key → s.parselState p.key = some v →
      .inProgress ≤ v.status)
    (fun _ _ => PublishOnly.of_append) (fun _ _ _ hv => by simp [Sys.init] at hv) ?_ hrun only c v
    publishing hv
  intro acts a s s' m hrun hstep only inv h c v publishing hv
  have hrun' : run D files (acts ++ [a]) = some s' := (exec_snoc_eq_some _).2 ⟨s, hrun, hstep⟩
  rcases h.parselState_cases p.key with same | change
  · rw [same] at hv
    rcases step_client hstep c with hpc | ⟨r, rfl, -, hpc⟩ | ⟨sh, rfl, hpc⟩ | ⟨rfl, hpc⟩
    · exact inv c v (hpc ▸ publishing) hv
    · rw [hpc] at publishing
      have unused := only.unused (a := .call c r) (uses_of_clientStart publishing)
      rw [parselState_of_unused hrun unused] at hv
      simp at hv
    · exact inv c v (publishing_of_clientStep hpc publishing) hv
    · exact absurd publishing (not_publishing_of_clientFail hpc)
  · rw [hv] at change
    generalize hw : some v = w at change
    cases change with
    | @publishState c' q t pc key =>
      -- the only client that publishes is the one that has just finished
      obtain ⟨r, hr, hu⟩ := call_of_publishing hrun' publishing
      obtain ⟨r', hr', hu'⟩ := call_of_publishing hrun ⟨q, key, .inr (.inl ⟨t, pc⟩)⟩
      obtain rfl := only.client_eq hr hu (List.mem_append_left _ hr') hu'
      simp only [step, pc, clientStep, Option.map_some, Option.some.injEq] at hstep
      subst hstep
      simp [ClientPC.Publishing] at publishing
    | waitErase pc key => simp at hw
    | sourceStatus pc key =>
      cases hw
      exact SourceTask.inProgress_le_status _
    | readStatus pc key =>
      cases hw
      exact le_rfl
    | _ pc key =>
      cases hw
      exact TaskStatus.le_done _

/-- The status of a parcel never goes backward in a run exactly when `QUEUED` is recorded before any
worker records a status. -/
theorem neverBackward_iff {c : ℕ} (published : .call c (.publish p d) ∈ acts)
    (distinct : acts.countP (Action.uses p.key) ≤ 1) :
    NeverBackward D files p.key acts ↔ QueuedFirst D files p.key acts := by
  have only := PublishOnly.of_mem published distinct
  constructor
  · intro forward pre c post s q t hacts hrun pc hk
    have only : PublishOnly p d pre := only.of_prefix ⟨_, hacts.symm⟩
    by_contra hne
    obtain ⟨v, hv⟩ := Option.ne_none_iff_exists'.1 hne
    have grown := inProgress_le_of_publishing only hrun ⟨q, hk, .inr (.inl ⟨t, pc⟩)⟩ hv
    have hstep : step D s (.client c) = some
        { s with
          toShared := s.toShared.updateParcelStatus q .queued t
          client := Function.update s.client c (.returned (.publish true)) } := by
      simp [step, pc, clientStep]
    rcases forward pre _ post s _ v hacts hrun hstep hv with
      ⟨c', q', r, after, ha, pc', -⟩ | ⟨v', hv', le⟩
    · cases ha
      simp [pc] at pc'
    · have queued : v' = ⟨.queued, t⟩ := by simpa [← hk] using hv'.symm
      subst queued
      have : TaskStatus.inProgress ≤ .queued := grown.trans le
      exact absurd this (by decide)
  · intro queued pre a post s s' v hacts hrun hstep hv
    have only : PublishOnly p d pre := only.of_prefix ⟨_, hacts.symm⟩
    obtain ⟨m, h⟩ := step_sound hstep
    rcases h.parselState_cases p.key with same | change
    · exact .inr ⟨v, same.trans hv, le_rfl⟩
    · generalize s'.parselState p.key = w at change
      cases change with
      | publishState pc key => simp [queued pre _ post s _ _ hacts hrun pc key] at hv
      | waitErase pc key => exact .inl ⟨_, _, _, _, rfl, pc, key⟩
      | sourceStatus pc key =>
        have hsrc := h.mem_src
        obtain ⟨rfl, -⟩ := only.eq_of_mem hrun hsrc key
        have early := status_le_queued only hrun hsrc le_rfl hv
        have late : TaskStatus.queued ≤ .inProgress := by decide
        exact .inr ⟨_, rfl, early.trans (late.trans (SourceTask.inProgress_le_status _))⟩
      | readStatus pc key =>
        have side := (only.eq_of_mem hrun h.mem_src key).2
        simp [Place.publishing] at side
      | _ pc key => exact .inr ⟨_, rfl, TaskStatus.le_done _⟩

/-- The run of one `Publish` whose collector does not act before it returns. -/
theorem neverBackward_iff_single :
    let p : Parcel := ⟨"f", 0, 1, 0, 0, .publish⟩
    let acts : List Action := List.flatten
      [[.call 0 (.publish p [97]), .client 0, .client 0, .client 0],
        List.replicate 7 (.writeSource 0)]
    NeverBackward (.single .iof) (fun _ => none) p.key acts ↔
      QueuedFirst (.single .iof) (fun _ => none) p.key acts :=
  neverBackward_iff (c := 0) (d := [97]) (by decide) (by decide)

/-- A collector that is done before `Publish` records `QUEUED`: the status goes from `DONE` back to
`QUEUED`. -/
theorem not_neverBackward :
    let p : Parcel := ⟨"f", 0, 1, 0, 0, .publish⟩
    let early : List Action := List.flatten
      [[.call 0 (.publish p [97]), .client 0, .client 0], List.replicate 7 (.writeSource 0)]
    let acts := early ++ [.client 0]
    (run (.single .iof) (fun _ => none) acts).isSome = true ∧
      acts.countP (Action.uses p.key) = 1 ∧
      ¬ NeverBackward (.single .iof) (fun _ => none) p.key acts := by
  intro p early acts
  refine ⟨by decide +kernel, by decide +kernel, fun forward => ?_⟩
  have seen : ((run (.single .iof) (fun _ => none) early).bind fun s =>
      (step (.single .iof) s (.client 0)).map fun s' =>
        (s.client 0, s.parselState p.key, s'.parselState p.key)) =
      some (.publishState p 0, some ⟨.done, 0⟩, some ⟨.queued, 0⟩) := by decide +kernel
  obtain ⟨s, hrun, hs⟩ := Option.bind_eq_some_iff.1 seen
  obtain ⟨s', hstep, hs'⟩ := Option.map_eq_some_iff.1 hs
  simp only [Prod.mk.injEq] at hs'
  obtain ⟨pc, before, after⟩ := hs'
  rcases forward early _ [] s s' _ rfl hrun hstep before with ⟨c, q, r, next, ha, pc', -⟩ | ⟨v, hv, le⟩
  · cases ha
    simp [pc] at pc'
  · rw [after] at hv
    cases hv
    exact absurd le (by decide)

end Rhea
