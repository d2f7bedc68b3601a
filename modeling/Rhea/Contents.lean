import Rhea.Order
import Rhea.Frame

/-!
# The contents of the destinations

A file that is no staging file has the contents that the writes to it leave, applied in the order in
which they were made (`files_eq_writeAll`).  For a staged parcel this needs that no other one is staged
in the same file, which holds when every collector is careful (`CarefulStaging`).
-/

namespace Rhea

open Transition Custody ByteFile

variable {D : Deployment} {files : Files} {acts : List Action} {s s' : Sys} {a : Action}
  {m : Option Handover} {p q : Parcel} {d e : Bytes} {l : Location} {data : Parcel → Bytes}

/-! ## What is published -/

/-- Every published parcel comes with exactly `data_size_` bytes. -/
def ExactBuffers (acts : List Action) : Prop := ∀ x ∈ publishes acts, x.2.length = x.1.dataSize

/-- The positions that are published to one file are pairwise distinct. -/
def DistinctPositions (acts : List Action) : Prop :=
  ∀ x ∈ publishes acts, ∀ y ∈ publishes acts, x.1.key ≠ y.1.key → x.1.id = y.1.id →
    x.1.position ≠ y.1.position

instance : Decidable (ExactBuffers acts) :=
  inferInstanceAs (Decidable (∀ x ∈ publishes acts, _))

instance : Decidable (DistinctPositions acts) :=
  inferInstanceAs (Decidable (∀ x ∈ publishes acts, ∀ y ∈ publishes acts, _ → _ → _))

/-- The bytes with which a parcel is published. -/
def dataOf (acts : List Action) (p : Parcel) : Bytes := ((publishes acts).lookup p).getD []

theorem DistinctKeys.only (distinct : DistinctKeys acts) (hp : (p, d) ∈ publishes acts) :
    PublishOnly p d acts := by
  obtain ⟨c, hc⟩ := mem_publishes.1 hp
  exact .of_mem hc (distinct _ hp)

theorem DistinctKeys.dataOf_eq (distinct : DistinctKeys acts) (hp : (p, d) ∈ publishes acts) :
    dataOf acts p = d := by
  rw [dataOf]
  cases found : (publishes acts).lookup p with
  | none => simpa using List.lookup_eq_none_iff.1 found _ hp
  | some e =>
    obtain ⟨l₁, l₂, hl, -⟩ := List.lookup_eq_some_iff.1 found
    obtain ⟨c, hc⟩ := mem_publishes.1 (by simp [hl] : (p, e) ∈ publishes acts)
    cases (distinct.only hp).publish c _ hc (by simp [Call.uses])
    rfl

theorem DistinctKeys.nodup_keys (distinct : DistinctKeys acts) :
    ((publishes acts).map fun x => x.1.key).Nodup := by
  refine List.nodup_iff_count_le_one.2 fun k => ?_
  by_cases hk : k ∈ (publishes acts).map fun x => x.1.key
  · obtain ⟨x, hx, rfl⟩ := List.mem_map.1 hk
    refine le_trans ?_ (distinct x hx)
    rw [List.count, List.countP_map, publishes, List.countP_filterMap]
    refine List.countP_mono_left fun a _ ha => ?_
    cases a with
    | call c r => cases r <;> simp_all [Action.uses, Call.uses]
    | _ => simp at ha
  · simp [List.count_eq_zero_of_not_mem hk]

theorem DistinctKeys.nodup (distinct : DistinctKeys acts) :
    ((publishes acts).map Prod.fst).Nodup := by
  have keys : (((publishes acts).map Prod.fst).map Parcel.key).Nodup := by
    rw [List.map_map]
    exact distinct.nodup_keys
  exact keys.of_map _

/-! ## Careful collectors -/

/-- Whether the action, when it is a collector's `Write`, finds no parcel staged in the staging file. -/
def Careful (D : Deployment) (s : Sys) : Action → Prop
  | .writeSource i => ∀ p e rest, s.writeSource i = .write p e rest →
      ∀ z q, q ∈ s.hold z → z.staged = true → D.staging q ≠ D.staging p
  | _ => True

/-- Whenever a collector is about to write a staging file, no parcel with the same `id_` and
`position_` has been staged and not yet removed. -/
abbrev CarefulStaging (D : Deployment) (files : Files) (acts : List Action) : Prop :=
  Along (step D) (Careful D) (Sys.init files) acts

theorem Step.staged_cases (h : Step D s a s' m) {z : Place} (hp : p ∈ s'.hold z)
    (staged : z.staged = true) :
    (∃ y, p ∈ s.hold y ∧ y.staged = true) ∨
      ∃ i e rest, a = .writeSource i ∧ s.writeSource i = .write p e rest := by
  rcases h.mem_of_mem hp with same | ⟨x, rfl⟩
  · exact .inl ⟨z, same, staged⟩
  · have before : ∀ y, x = some y → p ∈ s.hold y := by
      rintro y rfl
      exact h.mem_src
    generalize hm : some (Handover.mk p x (some z)) = l at h
    cases h
    case call c r free => cases r <;> cases hm <;> simp [Place.staged] at staged
    case sourceWrite i e rest pc =>
      cases hm
      exact .inr ⟨_, e, rest, rfl, pc⟩
    case sourceEmit i q rest pc =>
      obtain ⟨rfl, rfl, -⟩ : p = q ∧ x = some (.writeSource i .emit) ∧ some z = D.emitDst i := by
        simpa using hm
      exact .inl ⟨_, before _ rfl, rfl⟩
    all_goals cases hm
    all_goals first
      | exact .inl ⟨_, before _ rfl, rfl⟩
      | simp [Place.staged] at staged

theorem stagedApart_of_careful (careful : CarefulStaging D files acts)
    (hrun : run D files acts = some s) (p : Parcel) : StagedApart D p s := by
  refine run_invariant_under (CarefulStaging D files) (fun _ s => ∀ p, StagedApart D p s)
    (fun _ _ => Along.of_append (step D)) ?_ ?_ hrun careful p
  · intro p q z y hp
    exact absurd rfl (quiet_init files p.key z p hp)
  · intro acts a s s' m hrun _ careful inv h p q z y hp hz hq hy hk
    have here := careful.last (step D) hrun
    rcases h.staged_cases hp hz with ⟨z', hp', hz'⟩ | ⟨i, e, rest, rfl, pc⟩
    · rcases h.staged_cases hq hy with ⟨y', hq', hy'⟩ | ⟨i, e, rest, rfl, pc⟩
      · exact inv p q z' y' hp' hz' hq' hy' hk
      · exact (here q e rest pc z' p hp' hz').symm
    · rcases h.staged_cases hq hy with ⟨y', hq', hy'⟩ | ⟨i', e', rest', ha, pc'⟩
      · exact here p e rest pc y' q hq' hy'
      · cases ha
        rw [pc] at pc'
        cases pc'
        exact absurd rfl hk

/-- With careful collectors steps leave a parcel's staging file alone while it is staged. -/
theorem stagingKept_of_careful (rhea : ∀ i, D.writeJob i = .rhea) (only : PublishOnly p d acts)
    (careful : CarefulStaging D files acts) (names : NoStagingIds acts) (hp : Published p acts) :
    StagingKept D files p acts := by
  obtain ⟨e, he⟩ := hp
  refine stagingKept_of_apart rhea only ?_ ?_
  · rintro pre s ⟨post, rfl⟩ hrun
    exact stagedApart_of_careful (careful.of_append (step D)) hrun p
  · rintro q ⟨f, hf⟩ - h
    exact names _ hf _ he (congrArg Prod.snd h)

theorem careful_of_distinct (distinct : DistinctKeys acts) (positions : DistinctPositions acts) :
    CarefulStaging D files acts := by
  refine (along_iff _).2 fun pre a post s hacts hrun => ?_
  cases a with
  | writeSource i =>
    intro p e rest pc z q hq staged h
    have hpre : pre <+: acts := ⟨_, hacts.symm⟩
    have hp : p ∈ s.hold (.writeSource i .write) := by
      simp [Sys.mem_hold, Sys.at, pc, WriteSourcePC.held]
    obtain ⟨d, hd⟩ := (Published.of_mem hrun hp rfl).mono hpre.subset
    obtain ⟨f, hf⟩ := (Published.of_mem hrun hq (Place.publishing_of_staged staged)).mono hpre.subset
    by_cases hk : q.key = p.key
    · have only := distinct.only hd
      obtain rfl := ((only.of_prefix hpre).solo hrun).place_eq hq hp hk rfl
      simp [Place.staged] at staged
    · obtain ⟨hid, hpos⟩ := D.staging_inj h
      exact positions _ hf _ hd hk hid hpos
  | _ => trivial

/-! ## The writes to a file -/

/-- What the parcels of a list write to a file, in order. -/
def writesTo (D : Deployment) (data : Parcel → Bytes) (l : Location) (parcels : List Parcel) :
    List (ℕ × Bytes) :=
  (parcels.filter (D.destination · = l)).map fun p => (p.position, data p)

theorem writesTo_append (ps qs : List Parcel) :
    writesTo D data l (ps ++ qs) = writesTo D data l ps ++ writesTo D data l qs := by
  simp [writesTo]

theorem writesTo_filter (ps : List Parcel) :
    writesTo D data l (ps.filter (·.id = l.2)) = writesTo D data l ps := by
  rw [writesTo, List.filter_filter, writesTo]
  congr 1
  refine List.filter_congr fun p _ => ?_
  by_cases h : D.destination p = l
  · simp [← h, Deployment.destination]
  · simp [h]

theorem writeAll_writesTo_append (f : Option Bytes) (ps : List Parcel) (p : Parcel) :
    writeAll f (writesTo D data l (ps ++ [p])) =
      if D.destination p = l then
        some (overlay ((writeAll f (writesTo D data l ps)).getD []) p.position (data p))
      else writeAll f (writesTo D data l ps) := by
  rw [writesTo_append, writeAll_append]
  split_ifs with h
  · simp [writesTo, h, writeAll]
  · simp [writesTo, h, writeAll]

theorem directWrite_apply (fs : Files) (full : D.destination p = l → slice d 0 p.dataSize = data p) :
    directWrite D fs p d l =
      if D.destination p = l then some (overlay ((fs l).getD []) p.position (data p)) else fs l := by
  split_ifs with h
  · subst h
    rw [directWrite_self, full rfl]
  · exact directWrite_of_ne _ _ (Ne.symm h)

/-- What is assumed of the parcels that are published to a file: each is published once, with exactly
`data_size_` bytes, and a sink that is about to write it holds these bytes. -/
structure RightData (D : Deployment) (files : Files) (data : Parcel → Bytes) (l : Location)
    (acts : List Action) : Prop where
  only : ∀ p, Published p acts → D.destination p = l →
    PublishOnly p (data p) acts ∧ (data p).length = p.dataSize
  sink : ∀ pre s j p e, pre <+: acts → run D files pre = some s → s.writeSink j = .write p e →
    D.destination p = l → e = data p

theorem RightData.of_append (h : RightData D files data l (acts ++ [a])) :
    RightData D files data l acts where
  only p hp hl := (h.only p (hp.mono (List.subset_append_left ..)) hl).imp_left
    PublishOnly.of_append
  sink pre s j p e hpre := h.sink pre s j p e (hpre.trans (List.prefix_append ..))

/-- A file that is no staging file has the contents that the writes to it leave. -/
theorem files_eq_writeAll (staging : NoStaging D l acts) (right : RightData D files data l acts)
    (hrun : run D files acts = some s) :
    s.files l =
      writeAll (files l) (writesTo D data l ((history D files acts).filterMap Observation.writes)) := by
  refine run_invariant_under (fun acts => NoStaging D l acts ∧ RightData D files data l acts)
    (fun acts s => s.files l =
      writeAll (files l) (writesTo D data l ((history D files acts).filterMap Observation.writes)))
    (fun _ _ ok => ⟨ok.1.of_append, ok.2.of_append⟩) rfl ?_ hrun ⟨staging, right⟩
  rintro acts a s s' m hrun hstep ⟨staging, right⟩ inv h
  have published {q : Parcel} {x y : Place} (hm : m = some ⟨q, some x, some y⟩)
      (hx : x.publishing = true) : Published q acts := by
    subst hm
    exact .of_mem hrun h.mem_src hx
  rw [history_snoc hrun hstep, List.filterMap_append]
  clear hstep
  cases h
  case sourceWrite i p e rest pc =>
    have hp := published rfl rfl
    cases job : D.writeJob i with
    | rhea =>
      have silent : (observe D s (.writeSource i)).filterMap Observation.writes = [] := by
        simp [observe, WriteSourcePC.observe, pc, job, WriteJob.source, rheaWriteQueueSourceTask]
      rw [silent, List.append_nil, ← inv]
      exact stagingWrite_of_ne _ _ (staging.of_append _ hp).symm
    | iof =>
      have report : (observe D s (.writeSource i)).filterMap Observation.writes = [p] := by
        simp [observe, WriteSourcePC.observe, pc, job, WriteJob.source, iofWriteQueueSourceTask,
          Observation.writes]
      rw [report, writeAll_writesTo_append, ← inv]
      refine directWrite_apply _ fun hl => ?_
      obtain ⟨only, full⟩ := right.of_append.only p hp hl
      rw [fetched_eq only hrun pc rfl, bytesAt_take_of_length full, slice_zero_of_length full]
  case sinkRemove j p e pc =>
    refine (Function.update_of_ne (staging.of_append _ (published rfl rfl)).symm ..).trans ?_
    simpa [observe, pc] using inv
  case sinkWrite j p e pc =>
    have report : (observe D s (.writeSink j)).filterMap Observation.writes = [p] := by
      simp [observe, pc, Observation.writes]
    rw [report, writeAll_writesTo_append, ← inv]
    refine directWrite_apply _ fun hl => ?_
    obtain ⟨only, full⟩ := right.of_append.only p (published rfl rfl) hl
    rw [right.sink acts s j p e (List.prefix_append ..) hrun pc hl, slice_zero_of_length full]
  case sourceNext i amount l pc ends =>
    simpa [observe_sourceNext pc ends] using inv
  all_goals simp [observe, ClientPC.observe, WriteSourcePC.observe, Observation.writes,
    List.filterMap_cons, *]

/-! ## The staged job -/

/-- A destination is no staging file when no published id has the form of a staging name. -/
theorem noStaging_of_names (names : NoStagingIds acts) (hp : Published p acts) :
    NoStaging D (D.destination p) acts := by
  obtain ⟨d, hd⟩ := hp
  rintro q ⟨e, he⟩ h
  exact names _ hd _ he (congrArg Prod.snd h).symm

theorem rightData_of_careful (rhea : ∀ i, D.writeJob i = .rhea) (distinct : DistinctKeys acts)
    (full : ExactBuffers acts) (careful : CarefulStaging D files acts)
    (names : NoStagingIds acts) : RightData D files (dataOf acts) l acts where
  only := by
    rintro p ⟨d, hd⟩ -
    rw [distinct.dataOf_eq hd]
    exact ⟨distinct.only hd, full _ hd⟩
  sink := by
    rintro pre s j p e ⟨post, rfl⟩ hrun pc -
    have hp : p ∈ s.hold (.writeSink j .write) := by
      simp [Sys.mem_hold, Sys.at, pc, WriteSinkPC.held]
    obtain ⟨d, hd⟩ := (Published.of_mem hrun hp rfl).mono (List.subset_append_left pre post)
    have only := distinct.only hd
    have kept : StagingKept D files p (pre ++ post) :=
      stagingKept_of_careful rhea only careful names ⟨d, hd⟩
    rw [distinct.dataOf_eq hd]
    exact sink_data rhea (only.of_prefix ⟨post, rfl⟩) (full _ hd) (kept.of_prefix ⟨post, rfl⟩) hrun
      (.inr pc)

end Rhea
