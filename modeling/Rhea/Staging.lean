import Rhea.Handover

/-!
# Staging files and destinations

From the staging `Write` of its collector to the `Remove` of its sink the bytes of a parcel are in
its staging file; between `Remove` and the destination `Write` its sink holds them; afterwards they
are in the destination.  The staging file is named by file and offset only, so this needs that no
other parcel touches it in between (`StagingKept`), which is the case when the other published
parcels are `Apart`.
-/

namespace Rhea

open Transition Custody ByteFile

variable {D : Deployment} {files : Files} {acts : List Action} {s s' : Sys} {a : Action}
  {m : Option Handover} {p q : Parcel} {d e : Bytes}

/-- Whether the bytes of a parcel at a place are in its staging file. -/
def Place.staged : Place → Bool
  | .writeSource _ .deleteData | .writeSource _ .updateStatus | .writeSource _ .emit
  | .writeInbox | .writeSink _ .read | .writeSink _ .remove => true
  | _ => false

/-- While the parcel stays at a place where it is staged, steps do not change its staging file. -/
def StagingKept (D : Deployment) (files : Files) (p : Parcel) (acts : List Action) : Prop :=
  ∀ pre a post s s' z, acts = pre ++ a :: post → run D files pre = some s →
    step D s a = some s' → p ∈ s.hold z → p ∈ s'.hold z → z.staged = true →
    s'.files (D.staging p) = s.files (D.staging p)

theorem StagingKept.of_prefix {pre : List Action} (h : StagingKept D files p acts)
    (hpre : pre <+: acts) : StagingKept D files p pre := by
  obtain ⟨rest, rfl⟩ := hpre
  intro pre' b post s s' z hacts
  exact h pre' b (post ++ rest) s s' z (by simp [hacts])

theorem StagingKept.of_append (h : StagingKept D files p (acts ++ [a])) :
    StagingKept D files p acts :=
  h.of_prefix (List.prefix_append ..)

theorem Parcel.id_ne_stagingName (p : Parcel) : p.id ≠ p.stagingName := by
  intro h
  have := congrArg String.length h
  have separator : "_temp".length = 5 := by decide
  simp only [Parcel.stagingName, Numbered.numbered, stagingSeparator, String.length_append] at this
  omega

theorem Deployment.destination_ne_staging (p : Parcel) : D.destination p ≠ D.staging p :=
  fun h => p.id_ne_stagingName (congrArg Prod.snd h)

@[simp] theorem stagingWrite_self (fs : Files) (p : Parcel) (d : Bytes) :
    stagingWrite D fs p d (D.staging p) =
      some (overlay ((fs (D.staging p)).getD []) 0 (slice d 0 p.dataSize)) :=
  Function.update_self ..

theorem stagingWrite_of_ne (fs : Files) {p : Parcel} (d : Bytes) {l : Location}
    (hl : l ≠ D.staging p) : stagingWrite D fs p d l = fs l :=
  Function.update_of_ne hl ..

@[simp] theorem directWrite_self (fs : Files) (p : Parcel) (d : Bytes) :
    directWrite D fs p d (D.destination p) =
      some (overlay ((fs (D.destination p)).getD []) p.position (slice d 0 p.dataSize)) :=
  Function.update_self ..

theorem directWrite_of_ne (fs : Files) {p : Parcel} (d : Bytes) {l : Location}
    (hl : l ≠ D.destination p) : directWrite D fs p d l = fs l :=
  Function.update_of_ne hl ..

theorem source_write_of_rhea {job : WriteJob} (rhea : job = .rhea) :
    job.source.write = stagingWrite := by
  rw [rhea]
  rfl

theorem bytesAt_take_of_length (full : d.length = p.dataSize) (i : ℕ) :
    D.bytesAt i (d.take p.dataSize) p.dataSize = d := by
  rw [List.take_of_length_le full.le, Deployment.bytesAt_of_length full]

/-! ## Staging names -/

/-- Staging names are unambiguous, also for ids that look like staging names, and both ends use the
same one: the collector writes, at offset zero, the file that the sink reads from offset zero and
removes. -/
theorem staging_names :
    (∀ (s t : String) (m n : ℕ),
      s ++ "_temp" ++ toString m = t ++ "_temp" ++ toString n → s = t ∧ m = n) ∧
    ∀ (D : Deployment) (sh : Shared) (p : Parcel) (d : Bytes), ∃ name,
      name = p.id ++ "_temp" ++ toString p.position ∧
      (∀ i server rest l,
        (queueSourceStep rheaWriteQueueSourceTask D i server sh (.write p d rest)).1.files l =
          if l = (D.fileIOClient, name) then
            some (overlay ((sh.files l).getD []) 0 (D.bytesAt i d p.dataSize))
          else sh.files l) ∧
      writeSinkStep D sh (.read p) = some (sh, .remove p
        ((sh.files (D.fileIOClient, name)).elim (List.replicate p.dataSize 0) fun f =>
          blit (List.replicate p.dataSize 0) (slice f 0 p.dataSize))) ∧
      ∃ sh', writeSinkStep D sh (.remove p d) = some (sh', .write p d) ∧
        ∀ l, sh'.files l = if l = (D.fileIOClient, name) then none else sh.files l := by
  refine ⟨fun s t m n h => ?_, fun D sh p d => ⟨p.stagingName, rfl, ?_, ?_, _, rfl, ?_⟩⟩
  · exact Numbered.numbered_inj ⟨'p', by decide, by decide⟩ h
  · intro i server rest l
    show stagingWrite D sh.files p (D.bytesAt i d p.dataSize) l = _
    split_ifs with hl
    · have at_staging := stagingWrite_self (D := D) sh.files p (D.bytesAt i d p.dataSize)
      rw [slice_zero_of_length (D.bytesAt_length ..)] at at_staging
      rw [hl]
      exact at_staging
    · exact stagingWrite_of_ne _ _ hl
  · have source : (D.fileIOClient, (sinkSource p).id) = (D.fileIOClient, p.stagingName) := rfl
    simp only [writeSinkStep, IOClient.read, source]
    cases sh.files (D.fileIOClient, p.stagingName) <;> rfl
  · intro l
    exact Function.update_apply ..

/-! ## The staged bytes -/

/-- A staged parcel has its bytes at the front of its staging file. -/
theorem staged_holds (rhea : ∀ i, D.writeJob i = .rhea) (only : PublishOnly p d acts)
    (full : d.length = p.dataSize) (kept : StagingKept D files p acts)
    (hrun : run D files acts = some s) {z : Place} (hz : p ∈ s.hold z) (staged : z.staged = true) :
    ∃ f, s.files (D.staging p) = some f ∧ Holds f 0 d := by
  refine place_invariant (fun acts => PublishOnly p d acts ∧ StagingKept D files p acts)
    (fun _ q z s => q = p → z.staged = true → ∃ f, s.files (D.staging p) = some f ∧ Holds f 0 d)
    (fun _ _ ok => ⟨ok.1.of_append, ok.2.of_append⟩) (fun _ ok => ok.1.serial) ?_ ?_ hrun
    ⟨only, kept⟩ hz rfl rfl staged
  · rintro acts a s s' m q z hrun hstep ⟨-, kept⟩ h hq - unmoved inv rfl staged
    have stays : q ∈ s'.hold z := by
      refine (h.mem_or_moved hq).resolve_right ?_
      rintro ⟨y, hm⟩
      exact unmoved q _ y hm rfl
    obtain ⟨f, hf, holds⟩ := inv rfl staged
    exact ⟨f, (kept acts a [] s s' z rfl hrun hstep hq stays staged).trans hf, holds⟩
  · rintro acts a s s' q x z hrun hstep ⟨only, -⟩ h - before rfl staged
    clear hstep
    generalize hm : some (Handover.mk q x (some z)) = l at h
    cases h
    case call c r free => cases r <;> cases hm <;> simp [Place.staged] at staged
    case sourceWrite i e rest pc =>
      cases hm
      obtain rfl := fetched_eq only.of_append hrun pc rfl
      refine ⟨overlay ((s.files (D.staging q)).getD []) 0 d, ?_, holds_overlay _ 0 _⟩
      show (D.writeJob _).source.write D s.files q _ _ = _
      rw [source_write_of_rhea (rhea _), bytesAt_take_of_length full, stagingWrite_self,
        slice_zero_of_length full]
    case sourceEmit i p rest pc =>
      obtain ⟨rfl, rfl, hz⟩ : q = p ∧ x = some (.writeSource i .emit) ∧ some z = D.emitDst i := by
        simpa using hm
      exact (before _ rfl).2 rfl rfl
    all_goals cases hm
    all_goals first
      | exact (before _ rfl).2 rfl rfl
      | simp [Place.staged] at staged

theorem read_staging (full : d.length = p.dataSize) {fs : Files} {f : Bytes}
    (hf : fs (D.staging p) = some f) (holds : Holds f 0 d) :
    D.fileIOClient.read fs (sinkSource p) (List.replicate p.dataSize 0) = d := by
  have hf' : fs (D.fileIOClient, (sinkSource p).id) = some f := hf
  have hslice : slice f 0 p.dataSize = d := holds.slice_eq full
  simp only [IOClient.read, hf']
  show blit _ (slice f 0 p.dataSize) = d
  rw [hslice]
  exact blit_of_length (by simp [full])

/-- The bytes a sink holds between `Read` and `Write` are the published ones. -/
theorem sink_data (rhea : ∀ i, D.writeJob i = .rhea) (only : PublishOnly p d acts)
    (full : d.length = p.dataSize) (kept : StagingKept D files p acts)
    (hrun : run D files acts = some s) {j : ℕ}
    (pc : s.writeSink j = .remove p e ∨ s.writeSink j = .write p e) : e = d := by
  refine run_invariant_under (fun acts => PublishOnly p d acts ∧ StagingKept D files p acts)
    (fun _ s => ∀ e, s.writeSink j = .remove p e ∨ s.writeSink j = .write p e → e = d)
    (fun _ _ ok => ⟨ok.1.of_append, ok.2.of_append⟩) (fun e pc => by simp [Sys.init] at pc) ?_ hrun
    ⟨only, kept⟩ e pc
  rintro acts a s s' m hrun - ⟨only, kept⟩ inv h e (pc | pc)
  · rcases h.sink_remove pc with same | ⟨read, rfl⟩
    · exact inv e (.inl same)
    · have hp : p ∈ s.hold (.writeSink j .read) := by
        simp [Sys.mem_hold, Sys.at, read, WriteSinkPC.held]
      obtain ⟨f, hf, holds⟩ :=
        staged_holds rhea only.of_append full kept.of_append hrun hp rfl
      exact read_staging full hf holds
  · rcases h.sink_write pc with same | remove
    · exact inv e (.inr same)
    · exact inv e (.inl remove)

/-! ## The destination -/

/-- `q` does not get in the way of `p`: their staging files and destinations are different files, and
in one destination they have disjoint ranges. -/
structure Apart (D : Deployment) (p q : Parcel) : Prop where
  staging : D.staging q ≠ D.staging p
  source : D.staging q ≠ D.destination p
  target : D.destination q ≠ D.staging p
  ranges : D.destination q = D.destination p →
    p.position + p.dataSize ≤ q.position ∨ q.position + q.dataSize ≤ p.position

/-- The calls of `Publish` in a run, in order. -/
def publishes (acts : List Action) : List (Parcel × Bytes) :=
  acts.filterMap fun a =>
    match a with
    | .call _ (.publish p d) => some (p, d)
    | _ => none

theorem publishes_append (acts more : List Action) :
    publishes (acts ++ more) = publishes acts ++ publishes more := List.filterMap_append ..

theorem mem_publishes : (p, d) ∈ publishes acts ↔ ∃ c, .call c (.publish p d) ∈ acts := by
  simp only [publishes, List.mem_filterMap]
  constructor
  · rintro ⟨a, ha, h⟩
    split at h <;> cases h
    exact ⟨_, ha⟩
  · rintro ⟨c, hc⟩
    exact ⟨_, hc, rfl⟩

/-- The parcel is published in the run. -/
def Published (p : Parcel) (acts : List Action) : Prop := ∃ d, (p, d) ∈ publishes acts

theorem published_iff : Published p acts ↔ ∃ c d, .call c (.publish p d) ∈ acts := by
  simp only [Published, mem_publishes]
  exact exists_comm

theorem Published.of_mem (hrun : run D files acts = some s) {z : Place} (hp : p ∈ s.hold z)
    (hz : z.publishing = true) : Published p acts :=
  published_iff.2 (published_of_mem hrun hp hz)

/-- The other published parcels do not get in the way of `p`. -/
def AllApart (D : Deployment) (p : Parcel) (acts : List Action) : Prop :=
  ∀ q, Published q acts → q.key ≠ p.key → Apart D p q

theorem Published.mono {acts' : List Action} (h : Published p acts) (hsub : acts ⊆ acts') :
    Published p acts' := by
  obtain ⟨c, d, hc⟩ := published_iff.1 h
  exact published_iff.2 ⟨c, d, hsub hc⟩

theorem AllApart.of_prefix {pre : List Action} (h : AllApart D p acts) (hpre : pre <+: acts) :
    AllApart D p pre := fun q hq => h q (hq.mono hpre.subset)

theorem AllApart.of_append (h : AllApart D p (acts ++ [a])) : AllApart D p acts :=
  h.of_prefix (List.prefix_append ..)

/-- No other parcel is staged in the file in which `p` is staged. -/
def StagedApart (D : Deployment) (p : Parcel) (s : Sys) : Prop :=
  ∀ q z y, p ∈ s.hold z → z.staged = true → q ∈ s.hold y → y.staged = true → q.key ≠ p.key →
    D.staging q ≠ D.staging p

theorem Place.publishing_of_staged {z : Place} (h : z.staged = true) : z.publishing = true := by
  cases z with
  | writeSource i st | writeSink j st | writeInbox => rfl
  | _ => simp [Place.staged] at h

/-- A staging file is kept in which no other parcel is staged and to which none is published. -/
theorem stagingKept_of_apart (rhea : ∀ i, D.writeJob i = .rhea) (only' : PublishOnly p d acts)
    (apart : ∀ pre s, pre <+: acts → run D files pre = some s → StagedApart D p s)
    (target : ∀ q, Published q acts → q.key ≠ p.key → D.destination q ≠ D.staging p) :
    StagingKept D files p acts := by
  intro pre a post s s' z hacts hrun hstep before after staged
  have hpre : pre <+: acts := ⟨_, hacts.symm⟩
  have hpre' : pre ++ [a] <+: acts := ⟨post, by simp [hacts]⟩
  have hrun' : run D files (pre ++ [a]) = some s' := (exec_snoc_eq_some _).2 ⟨s, hrun, hstep⟩
  obtain ⟨m, h⟩ := step_sound hstep
  have other {q : Parcel} {x y : Place} (hm : m = some ⟨q, some x, some y⟩) : q.key ≠ p.key := by
    subst hm
    exact h.key_ne_of_stays ((only'.of_prefix hpre).solo hrun) ((only'.of_prefix hpre').solo hrun')
      before after
  rcases h.files_cases with same | change
  · rw [same]
  · generalize s'.files = fs at change
    cases change with
    | sourceWrite pc =>
      rw [source_write_of_rhea (rhea _)]
      refine stagingWrite_of_ne _ _ (Ne.symm ?_)
      exact apart _ s' hpre' hrun' _ z _ after staged h.mem_dst rfl (other rfl)
    | sinkRemove pc =>
      refine Function.update_of_ne (Ne.symm ?_) ..
      exact apart _ s hpre hrun _ z _ before staged h.mem_src rfl (other rfl)
    | sinkWrite pc =>
      refine directWrite_of_ne _ _ (Ne.symm (target _ ?_ (other rfl)))
      exact (Published.of_mem hrun h.mem_src rfl).mono hpre.subset

theorem AllApart.stagingKept (rhea : ∀ i, D.writeJob i = .rhea) (only : PublishOnly p d acts)
    (apart : AllApart D p acts) : StagingKept D files p acts := by
  refine stagingKept_of_apart rhea only ?_ fun q hq hk => (apart q hq hk).target
  intro pre s hpre hrun q z y _ _ hq staged hk
  have published := Published.of_mem hrun hq (Place.publishing_of_staged staged)
  exact (apart q (published.mono hpre.subset) hk).staging

theorem AllApart.write_data (rhea : ∀ i, D.writeJob i = .rhea) (only : PublishOnly p d acts)
    (full : d.length = p.dataSize) (apart : AllApart D p acts) (hrun : run D files acts = some s)
    {j : ℕ} (pc : s.writeSink j = .write p e) : e = d :=
  sink_data rhea only full (apart.stagingKept rhea only) hrun (.inr pc)

/-- Once the bytes of a parcel have been written to its destination, they stay there. -/
theorem written_holds (rhea : ∀ i, D.writeJob i = .rhea) (only : PublishOnly p d acts)
    (full : d.length = p.dataSize) (apart : AllApart D p acts) (hrun : run D files acts = some s)
    (ho : .written p ∈ history D files acts) :
    ∃ f, s.files (D.destination p) = some f ∧ Holds f p.position d := by
  refine run_invariant_under (fun acts => PublishOnly p d acts ∧ AllApart D p acts)
    (fun acts s => .written p ∈ history D files acts →
      ∃ f, s.files (D.destination p) = some f ∧ Holds f p.position d)
    (fun _ _ ok => ⟨ok.1.of_append, ok.2.of_append⟩) (by simp) ?_ hrun ⟨only, apart⟩ ho
  rintro acts a s s' m hrun hstep ⟨only, apart⟩ inv h ho
  rw [history_snoc hrun hstep, List.mem_append] at ho
  have own (fs : Files) : ∃ f, directWrite D fs p d (D.destination p) = some f ∧
      Holds f p.position d := by
    refine ⟨_, directWrite_self .., ?_⟩
    rw [slice_zero_of_length full]
    exact holds_overlay _ _ _
  rcases ho with ho | ho
  · obtain ⟨f, hf, holds⟩ := inv ho
    have published {q : Parcel} {x y : Place} (hm : m = some ⟨q, some x, some y⟩)
        (hx : x.publishing = true) (hk : q.key ≠ p.key) : Apart D p q := by
      subst hm
      exact apart.of_append q (.of_mem hrun h.mem_src hx) hk
    rcases h.files_cases with same | change
    · exact ⟨f, same ▸ hf, holds⟩
    · generalize s'.files = fs at change
      cases change with
      | @sourceWrite i q e rest pc =>
        rw [source_write_of_rhea (rhea _)]
        refine ⟨f, (stagingWrite_of_ne _ _ ?_).trans hf, holds⟩
        by_cases hk : q.key = p.key
        · obtain ⟨rfl, -⟩ := only.of_append.eq_of_mem hrun h.mem_src hk
          exact D.destination_ne_staging q
        · exact (published rfl rfl hk).source.symm
      | @sinkRemove j q e pc =>
        refine ⟨f, (Function.update_of_ne ?_ ..).trans hf, holds⟩
        by_cases hk : q.key = p.key
        · obtain ⟨rfl, -⟩ := only.of_append.eq_of_mem hrun h.mem_src hk
          exact D.destination_ne_staging q
        · exact (published rfl rfl hk).source.symm
      | @sinkWrite j q e pc =>
        by_cases hk : q.key = p.key
        · obtain ⟨rfl, -⟩ := only.of_append.eq_of_mem hrun h.mem_src hk
          obtain rfl := apart.of_append.write_data rhea only.of_append full hrun pc
          exact own _
        · by_cases hl : D.destination p = D.destination q
          · have disjoint := (published rfl rfl hk).ranges hl.symm
            rw [hl] at hf ⊢
            refine ⟨_, directWrite_self .., ?_⟩
            rw [hf]
            refine holds.overlay ?_
            have := slice_length_le e 0 q.dataSize
            omega
          · exact ⟨f, (directWrite_of_ne _ _ hl).trans hf, holds⟩
  · cases h.observed ho with
    | @writtenDirect i _ _ _ pc last => simp [rhea i, WriteJob.source, rheaWriteQueueSourceTask] at last
    | @written j _ e pc =>
      have hdata := apart.of_append.write_data rhea only.of_append full hrun pc
      have hfiles : s'.files = directWrite D s.files p e := by
        simp only [step, pc, writeSinkStep, Option.map_some, Option.some.injEq] at hstep
        exact hstep ▸ rfl
      rw [hfiles, hdata]
      exact own _

end Rhea
