import Rhea.Acknowledged

/-!
# Which files the write job touches

A staging file exists while its parcel is at a place where it is staged; the sink removes it.  The
write job leaves all other files but the destinations alone when no file was there under the name of
a staging file and no parcel was published to one (`destinationsOnly_of_stagingFree`).
-/

namespace Rhea

open Transition Custody ByteFile

variable {D : Deployment} {files : Files} {acts : List Action} {s s' : Sys} {a : Action}
  {m : Option Handover} {p q : Parcel} {d : Bytes} {l : Location}

/-- Every published parcel has been processed. -/
def Complete (D : Deployment) (files : Files) (acts : List Action) : Prop :=
  ∀ x ∈ publishes acts, .recorded x.1 .done ∈ history D files acts

/-- No parcel of the run has the file as its destination. -/
def NoDestination (D : Deployment) (l : Location) (acts : List Action) : Prop :=
  ∀ q, Published q acts → D.destination q ≠ l

/-- The files after the run are those before it, up to the destinations: no staging file is left and
no destination is removed. -/
structure DestinationsOnly (D : Deployment) (files : Files) (acts : List Action) (s : Sys) :
    Prop where
  frame : ∀ l, NoDestination D l acts → s.files l = files l
  staging : ∀ x ∈ publishes acts, NoDestination D (D.staging x.1) acts →
    s.files (D.staging x.1) = none
  destinations : ∀ x ∈ publishes acts, s.files (D.destination x.1) ≠ none

/-- No staging file of the run exists before it, and none is a destination. -/
def StagingFree (D : Deployment) (files : Files) (acts : List Action) : Prop :=
  ∀ x ∈ publishes acts, files (D.staging x.1) = none ∧
    ∀ y ∈ publishes acts, D.destination y.1 ≠ D.staging x.1

instance : Decidable (Complete D files acts) :=
  inferInstanceAs (Decidable (∀ x ∈ publishes acts, _))

instance : Decidable (StagingFree D files acts) :=
  inferInstanceAs (Decidable (∀ x ∈ publishes acts, _ ∧ ∀ y ∈ publishes acts, _))

/-! ## Files that are neither staging files nor destinations -/

/-- No parcel of the run has the file as its staging file. -/
def NoStaging (D : Deployment) (l : Location) (acts : List Action) : Prop :=
  ∀ q, Published q acts → D.staging q ≠ l

theorem NoStaging.of_append (h : NoStaging D l (acts ++ [a])) : NoStaging D l acts :=
  fun q hq => h q (hq.mono (List.subset_append_left ..))

theorem NoDestination.of_append (h : NoDestination D l (acts ++ [a])) : NoDestination D l acts :=
  fun q hq => h q (hq.mono (List.subset_append_left ..))

theorem untouched (rhea : ∀ i, D.writeJob i = .rhea) (staging : NoStaging D l acts)
    (destination : NoDestination D l acts) (hrun : run D files acts = some s) :
    s.files l = files l := by
  refine run_invariant_under (fun acts => NoStaging D l acts ∧ NoDestination D l acts)
    (fun _ s => s.files l = files l) (fun _ _ ok => ⟨ok.1.of_append, ok.2.of_append⟩) rfl ?_ hrun
    ⟨staging, destination⟩
  rintro acts a s s' m hrun hstep ⟨staging, destination⟩ inv h
  rcases h.files_cases with same | change
  · rw [same, inv]
  · generalize s'.files = fs at change
    cases change with
    | sourceWrite pc =>
      rw [source_write_of_rhea (rhea _), ← inv]
      exact stagingWrite_of_ne _ _ (staging.of_append _ (.of_mem hrun h.mem_src rfl)).symm
    | sinkRemove pc =>
      rw [← inv]
      exact Function.update_of_ne (staging.of_append _ (.of_mem hrun h.mem_src rfl)).symm ..
    | sinkWrite pc =>
      rw [← inv]
      exact directWrite_of_ne _ _ (destination.of_append _ (.of_mem hrun h.mem_src rfl)).symm

/-! ## Staging files -/

theorem Step.staged_next (rhea : ∀ i, D.writeJob i = .rhea) {z : Place} {y : Option Place}
    (h : Step D s a s' (some ⟨p, some z, y⟩)) (staged : z.staged = true) :
    (∃ y', y = some y' ∧ y'.staged = true) ∨ s'.files (D.staging p) = none := by
  generalize hm : some (Handover.mk p (some z) y) = l at h
  cases h
  case call c r free => cases r <;> cases hm
  case sourceEmit i q rest pc =>
    obtain ⟨-, -, rfl⟩ : p = q ∧ z = .writeSource i .emit ∧ y = D.emitDst i := by simpa using hm
    refine .inl ⟨.writeInbox, ?_, rfl⟩
    rw [Deployment.emitDst, rhea]
    rfl
  case sinkRemove j q e pc =>
    cases hm
    exact .inr (Function.update_self ..)
  all_goals cases hm
  all_goals first
    | exact .inl ⟨_, rfl, rfl⟩
    | simp [Place.staged] at staged

/-- The staging file of a parcel does not exist while the parcel is not staged. -/
theorem staging_none (rhea : ∀ i, D.writeJob i = .rhea) (only : PublishOnly p d acts)
    (own : ∀ q, Published q acts → q.key ≠ p.key → D.staging q ≠ D.staging p)
    (destination : NoDestination D (D.staging p) acts) (free : files (D.staging p) = none)
    (hrun : run D files acts = some s) (gone : ∀ z, p ∈ s.hold z → z.staged = false) :
    s.files (D.staging p) = none := by
  refine run_invariant_under (fun acts => PublishOnly p d acts ∧
      (∀ q, Published q acts → q.key ≠ p.key → D.staging q ≠ D.staging p) ∧
      NoDestination D (D.staging p) acts)
    (fun _ s => (∀ z, p ∈ s.hold z → z.staged = false) → s.files (D.staging p) = none)
    (fun _ _ ok => ⟨ok.1.of_append, fun q hq => ok.2.1 q (hq.mono (List.subset_append_left ..)),
      ok.2.2.of_append⟩) (fun _ => free) ?_ hrun ⟨only, own, destination⟩ gone
  rintro acts a s s' m hrun hstep ⟨only, own, destination⟩ inv h gone
  have published {q : Parcel} {x y : Place} (hm : m = some ⟨q, some x, some y⟩)
      (hx : x.publishing = true) : Published q (acts ++ [a]) := by
    subst hm
    exact (Published.of_mem hrun h.mem_src hx).mono (List.subset_append_left ..)
  by_cases before : ∃ z, p ∈ s.hold z ∧ z.staged = true
  · obtain ⟨z, hz, staged⟩ := before
    rcases h.mem_or_moved hz with stays | ⟨y, rfl⟩
    · exact absurd (gone z stays) (by simp [staged])
    · rcases h.staged_next rhea staged with ⟨y', rfl, staged'⟩ | removed
      · exact absurd (gone y' h.mem_dst) (by simp [staged'])
      · exact removed
  · have none := inv fun z hz => by
      by_contra staged
      exact before ⟨z, hz, by simpa using staged⟩
    rcases h.files_cases with same | change
    · rw [same, none]
    · generalize hfs : s'.files = fs at change
      cases change with
      | @sourceWrite i q e rest pc =>
        rw [source_write_of_rhea (rhea _)]
        by_cases hk : q.key = p.key
        · obtain ⟨rfl, -⟩ := only.of_append.eq_of_mem hrun h.mem_src hk
          exact absurd (gone _ h.mem_dst) (by simp [Place.staged])
        · exact (stagingWrite_of_ne _ _ (own q (published rfl rfl) hk).symm).trans none
      | @sinkRemove j q e pc =>
        rw [Function.update_apply, none, ite_self]
      | @sinkWrite j q e pc =>
        exact (directWrite_of_ne _ _ (destination q (published rfl rfl)).symm).trans none

/-! ## Destinations -/

theorem destination_ne_none (rhea : ∀ i, D.writeJob i = .rhea)
    (staging : NoStaging D (D.destination p) acts) (hrun : run D files acts = some s)
    (ho : .written p ∈ history D files acts) : s.files (D.destination p) ≠ none := by
  refine run_invariant_under (NoStaging D (D.destination p))
    (fun acts s => .written p ∈ history D files acts → s.files (D.destination p) ≠ none)
    (fun _ _ => NoStaging.of_append) (by simp) ?_ hrun staging ho
  intro acts a s s' m hrun hstep staging inv h ho
  rw [history_snoc hrun hstep, List.mem_append] at ho
  rcases ho with ho | ho
  · have there := inv ho
    rcases h.files_cases with same | change
    · rwa [same]
    · generalize s'.files = fs at change
      cases change with
      | sourceWrite pc =>
        rwa [source_write_of_rhea (rhea _),
          stagingWrite_of_ne _ _ (staging.of_append _ (.of_mem hrun h.mem_src rfl)).symm]
      | sinkRemove pc =>
        rwa [Function.update_of_ne (staging.of_append _ (.of_mem hrun h.mem_src rfl)).symm]
      | @sinkWrite j q e pc =>
        by_cases hl : D.destination p = D.destination q
        · rw [hl, directWrite_self]
          exact Option.some_ne_none _
        · rwa [directWrite_of_ne _ _ hl]
  · cases h.observed ho with
    | @writtenDirect i _ _ _ pc last => simp [rhea i, WriteJob.source, rheaWriteQueueSourceTask] at last
    | @written j _ e pc =>
      have hfiles : s'.files = directWrite D s.files p e := by
        simp only [step, pc, writeSinkStep, Option.map_some, Option.some.injEq] at hstep
        exact hstep ▸ rfl
      rw [hfiles, directWrite_self]
      exact Option.some_ne_none _

/-- The write job touches no file but the destinations when no staging file of the run existed before
it and none is a destination. -/
theorem destinationsOnly_of_stagingFree (rhea : ∀ i, D.writeJob i = .rhea)
    (distinct : DistinctKeys acts) (nonempty : NonemptyRanges acts) (disjoint : DisjointRanges acts)
    (hrun : run D files acts = some s) (complete : Complete D files acts)
    (free : StagingFree D files acts) : DestinationsOnly D files acts s := by
  have publish {x : Parcel × Bytes} (hx : x ∈ publishes acts) : PublishOnly x.1 x.2 acts := by
    obtain ⟨c, hc⟩ := mem_publishes.1 hx
    exact .of_mem hc (distinct x hx)
  have apart {x : Parcel × Bytes} (hx : x ∈ publishes acts) :
      NoDestination D (D.staging x.1) acts := by
    rintro q ⟨e, hq⟩
    exact (free x hx).2 _ hq
  have none : ∀ x ∈ publishes acts, s.files (D.staging x.1) = none := by
    intro x hx
    refine staging_none rhea (publish hx) (fun q hq hk => ?_) (apart hx) (free x hx).1 hrun ?_
    · exact staging_ne_of_disjoint nonempty disjoint hq ⟨x.2, hx⟩ hk
    · intro z hz
      exact absurd rfl ((publish hx).quiet_of_done rhea hrun (complete x hx) z x.1 hz)
  refine ⟨fun l outside => ?_, fun x hx _ => none x hx, fun x hx => ?_⟩
  · by_cases staged : ∃ x ∈ publishes acts, D.staging x.1 = l
    · obtain ⟨x, hx, rfl⟩ := staged
      exact (none x hx).trans (free x hx).1.symm
    · refine untouched rhea ?_ outside hrun
      rintro q ⟨e, hq⟩ h
      exact staged ⟨_, hq, h⟩
  · refine destination_ne_none rhea ?_ hrun
      (written_of_recorded rhea (publish hx) hrun rfl (complete x hx))
    rintro q ⟨e, hq⟩ h
    exact (free _ hq).2 x hx h.symm

end Rhea
