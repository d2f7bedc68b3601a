import Rhea.Contents

/-!
# The contents after completed runs

Once all published parcels have been processed, a destination has what the writes in emit order leave
(`emit_order_decides`); for a single collector that is the order in which it popped them, and a single
collector of the direct job leaves the same (`staged_eq_direct`).
-/

namespace Rhea

open Transition Custody ByteFile

variable {D : Deployment} {files : Files} {acts acts' : List Action} {s s' : Sys} {p : Parcel}
  {d : Bytes} {route : ℕ → ℕ} {i c : ℕ}

/-! ## Completed runs -/

theorem Complete.not_mem (rhea : ∀ i, D.writeJob i = .rhea) (distinct : DistinctKeys acts)
    (complete : Complete D files acts) (hrun : run D files acts = some s) {z : Place}
    (hz : z.publishing = true) : p ∉ s.hold z := by
  intro hp
  obtain ⟨d, hd⟩ := Published.of_mem hrun hp hz
  exact (distinct.only hd).quiet_of_done rhea hrun (complete _ hd) z p hp rfl

theorem WriteSinkPC.held_of_pending {pc : WriteSinkPC} (hp : p ∈ pc.pending) :
    ∃ st, p ∈ pc.held st := by
  cases pc with
  | read q => exact ⟨.read, by simpa [held, pending] using hp⟩
  | remove q e => exact ⟨.remove, by simpa [held, pending] using hp⟩
  | write q e => exact ⟨.write, by simpa [held, pending] using hp⟩
  | _ => simp [pending] at hp

theorem WriteSourcePC.held_of_parcels {pc : WriteSourcePC} (hp : p ∈ pc.parcels) :
    p ∈ pc.batch ∨ ∃ st, p ∈ pc.held st := by
  cases pc with
  | wait => simp [parcels] at hp
  | pop amount l | getData q l => exact .inl hp
  | write q e rest => exact (List.mem_cons.1 hp).symm.imp_right fun h => ⟨.write, by simp [held, h]⟩
  | deleteData q rest =>
    exact (List.mem_cons.1 hp).symm.imp_right fun h => ⟨.deleteData, by simp [held, h]⟩
  | updateStatus q t rest =>
    exact (List.mem_cons.1 hp).symm.imp_right fun h => ⟨.updateStatus, by simp [held, h]⟩
  | emit q rest => exact (List.mem_cons.1 hp).symm.imp_right fun h => ⟨.emit, by simp [held, h]⟩

theorem written_eq_emitted (rhea : ∀ i, D.writeJob i = .rhea) (distinct : DistinctKeys acts)
    (complete : Complete D files acts) (order : InEmitOrder D files route acts)
    (hrun : run D files acts = some s) (id : String) :
    ((history D files acts).filterMap Observation.writes).filter (·.id = id) =
      (s.writeStream.map Prod.snd).filter (·.id = id) := by
  have pending : (s.writeSink (route (D.hash id))).pending = [] := by
    refine List.eq_nil_iff_forall_not_mem.2 fun p hp => ?_
    obtain ⟨st, hst⟩ := WriteSinkPC.held_of_pending hp
    exact complete.not_mem rhea distinct hrun (z := .writeSink _ st) rfl hst
  have inbox : s.writeInbox = [] :=
    List.eq_nil_iff_forall_not_mem.2 fun p =>
      complete.not_mem rhea distinct hrun (z := .writeInbox) rfl
  simpa [pending, inbox] using (emitted_eq rhea order hrun id).symm

theorem emitted_eq_popped (rhea : ∀ i, D.writeJob i = .rhea) (distinct : DistinctKeys acts)
    (complete : Complete D files acts) (hrun : run D files acts = some s) (i : ℕ) :
    s.entrusted (.emitted i) = (history D files acts).filterMap (Observation.poppedBy i) := by
  have idle : s.entrusted (.collector i) = [] := by
    refine List.eq_nil_iff_forall_not_mem.2 fun p hp => ?_
    rcases WriteSourcePC.held_of_parcels hp with hp | ⟨st, hp⟩
    · exact complete.not_mem rhea distinct hrun (z := .writeBatch i) rfl hp
    · exact complete.not_mem rhea distinct hrun (z := .writeSource i st) rfl hp
  rw [popped_eq hrun, idle, List.append_nil]

/-- After a completed run of careful collectors a destination has what the parcels leave that write to
it, in the order in which they were emitted. -/
theorem staged_contents (rhea : ∀ i, D.writeJob i = .rhea) (distinct : DistinctKeys acts)
    (full : ExactBuffers acts) (careful : CarefulStaging D files acts) (names : NoStagingIds acts)
    (order : InEmitOrder D files route acts) (complete : Complete D files acts)
    (hrun : run D files acts = some s) (published : Published p acts) :
    s.files (D.destination p) = writeAll (files (D.destination p))
      (writesTo D (dataOf acts) (D.destination p) (s.writeStream.map Prod.snd)) := by
  rw [files_eq_writeAll (noStaging_of_names names published)
    (rightData_of_careful rhea distinct full careful names) hrun,
    ← writesTo_filter (List.filterMap _ _), ← writesTo_filter (List.map _ _),
    written_eq_emitted rhea distinct complete order hrun]

/-! ## Publish order -/

theorem poppedBy_sublist (i : ℕ) (l : List Observation) :
    (l.filterMap (Observation.poppedBy i)).Sublist
      (l.filterMap (Observation.poppedFrom D (D.writeServer i))) := by
  induction l with
  | nil => exact .slnil
  | cons o l ih =>
    cases o with
    | popped i' p =>
      rcases eq_or_ne i' i with rfl | hi
      · simpa [Observation.poppedBy, Observation.poppedFrom] using ih
      · rw [List.filterMap_cons_none (by simp [Observation.poppedBy, hi])]
        exact ih.trans ((List.sublist_cons_self _ _).filterMap _)
    | _ => exact ih

/-- What a collector emits of one file is in publish order. -/
theorem emitted_sublist (rhea : ∀ i, D.writeJob i = .rhea) (distinct : DistinctKeys acts)
    (complete : Complete D files acts) {id : String} (one : OneClient c id acts)
    (hrun : run D files acts = some s) (server : D.writeServer i = D.myServer c) :
    ((s.entrusted (.emitted i)).filter (·.id = id)).Sublist
      (((publishes acts).map Prod.fst).filter (·.id = id)) := by
  refine List.Sublist.trans (List.Sublist.filter _ ?_) (published_sublist one hrun)
  rw [emitted_eq_popped rhea distinct complete hrun, pushed_eq hrun, List.append_assoc]
  refine List.Sublist.trans ?_ (List.sublist_append_left ..)
  rw [← server]
  exact poppedBy_sublist i _

theorem emitted_eq_published (rhea : ∀ i, D.writeJob i = .rhea) (distinct : DistinctKeys acts)
    (complete : Complete D files acts) (order : InEmitOrder D files route acts) {id : String}
    (one : OneClient c id acts) (single : OneCollector i acts) (hrun : run D files acts = some s)
    (server : D.writeServer i = D.myServer c) :
    (s.writeStream.map Prod.snd).filter (·.id = id) =
      ((publishes acts).map Prod.fst).filter (·.id = id) := by
  have sub := emitted_sublist rhea distinct complete one hrun server
  rw [← emitted_of_one single hrun] at sub
  refine sub.eq_of_length_le (List.Subperm.length_le ?_)
  refine List.subperm_of_subset (distinct.nodup.filter _) fun p hp => ?_
  rw [← written_eq_emitted rhea distinct complete order hrun]
  obtain ⟨hp, hid⟩ := List.mem_filter.1 hp
  obtain ⟨x, hx, rfl⟩ := List.mem_map.1 hp
  have written := written_of_recorded rhea (distinct.only hx) hrun rfl (complete x hx)
  exact List.mem_filter.2 ⟨List.mem_filterMap.2 ⟨_, written, rfl⟩, hid⟩

/-- The order of the emits decides.  After all parcels have been processed, a file has what the writes
in the order of the emits leave; every collector emits the file's parcels in publish order, so that a
single collector keeps publish order. -/
theorem emit_order_decides (rhea : ∀ i, D.writeJob i = .rhea) (distinct : DistinctKeys acts)
    (positions : DistinctPositions acts) (full : ExactBuffers acts) (names : NoStagingIds acts)
    (order : InEmitOrder D files route acts) (one : OneClient c p.id acts)
    (hrun : run D files acts = some s) (complete : Complete D files acts)
    (published : Published p acts) :
    s.files (D.destination p) = writeAll (files (D.destination p))
        (writesTo D (dataOf acts) (D.destination p) (s.writeStream.map Prod.snd)) ∧
      ∀ i, D.writeServer i = D.myServer c →
        ((s.entrusted (.emitted i)).filter (·.id = p.id)).Sublist
            (((publishes acts).map Prod.fst).filter (·.id = p.id)) ∧
          (OneCollector i acts → s.files (D.destination p) = writeAll (files (D.destination p))
            (writesTo D (dataOf acts) (D.destination p) ((publishes acts).map Prod.fst))) := by
  have contents := staged_contents rhea distinct full (careful_of_distinct distinct positions) names
    order complete hrun published
  refine ⟨contents, fun i server => ⟨?_, fun single => ?_⟩⟩
  · exact emitted_sublist rhea distinct complete one hrun server
  · have emitted := emitted_eq_published rhea distinct complete order one single hrun server
    rw [contents, ← writesTo_filter (List.map Prod.snd _), ← writesTo_filter (List.map Prod.fst _)]
    exact congrArg (fun l => writeAll _ (writesTo D _ _ l)) emitted

/-- One client publishes two overlapping ranges, one collector pops both. -/
theorem emit_order_decides_single :
    let p : Parcel := ⟨"f", 0, 2, 0, 0, .publish⟩
    let q : Parcel := ⟨"f", 1, 2, 0, 1, .publish⟩
    let acts : List Action := List.flatten
      [[.call 0 (.publish p [97, 97]), .client 0, .client 0, .client 0,
          .call 0 (.publish q [98, 98]), .client 0, .client 0, .client 0],
        List.replicate 14 (.writeSource 0), .deliverWrite 0 0 :: List.replicate 4 (.writeSink 0),
        .deliverWrite 0 0 :: List.replicate 4 (.writeSink 0)]
    ∃ s, run (.single .rhea) (fun _ => none) acts = some s ∧ s.files (0, "f") = some [97, 98, 98] := by
  intro p q acts
  have hrun := (Option.some_get (x := run (.single .rhea) (fun _ => none) acts)
    (by decide +kernel)).symm
  have order : InEmitOrder (.single .rhea) (fun _ => none) (fun _ => 0) acts := by decide +kernel
  have given := emit_order_decides (p := p) (c := 0) (fun _ => rfl) (by decide +kernel)
    (by decide +kernel) (by decide +kernel) (by decide +kernel) order (by decide +kernel) hrun
    (by decide +kernel) ⟨[97, 97], by decide +kernel⟩
  have kept := (given.2 0 rfl).2 (by decide +kernel)
  exact ⟨_, hrun, kept.trans (by decide +kernel)⟩

/-- Of two collectors the second emits first: the parcel published first wins. -/
theorem not_publish_order :
    let p : Parcel := ⟨"f", 0, 2, 0, 0, .publish⟩
    let q : Parcel := ⟨"f", 1, 2, 0, 1, .publish⟩
    let acts : List Action := List.flatten
      [[.call 0 (.publish p [97, 97]), .client 0, .client 0, .client 0,
          .call 0 (.publish q [98, 98]), .client 0, .client 0, .client 0],
        List.replicate 2 (.writeSource 0), List.replicate 8 (.writeSource 1),
        List.replicate 6 (.writeSource 0), .deliverWrite 0 0 :: List.replicate 4 (.writeSink 0),
        .deliverWrite 0 0 :: List.replicate 4 (.writeSink 0)]
    let D : Deployment := .single .rhea
    DistinctKeys acts ∧ DistinctPositions acts ∧ ExactBuffers acts ∧ NoStagingIds acts ∧
      InEmitOrder D (fun _ => none) (fun _ => 0) acts ∧ OneClient 0 "f" acts ∧
      Complete D (fun _ => none) acts ∧
      ∃ s, run D (fun _ => none) acts = some s ∧ s.files (0, "f") ≠
        writeAll none (writesTo D (dataOf acts) (0, "f") ((publishes acts).map Prod.fst)) := by
  intro p q acts D
  have hrun := (Option.some_get (x := run D (fun _ => none) acts) (by decide +kernel)).symm
  exact ⟨by decide +kernel, by decide +kernel, by decide +kernel, by decide +kernel,
    by decide +kernel, by decide +kernel, by decide +kernel, _, hrun, by decide +kernel⟩

/-! ## The direct job -/

/-- Once `DONE` has been recorded for a published parcel, its collector has written it. -/
theorem PublishOnly.progress_of_done (only : PublishOnly p d acts)
    (hrun : run D files acts = some s) (ho : .recorded p .done ∈ history D files acts) {z : Place}
    (hp : p ∈ s.hold z) : 7 ≤ z.progress := by
  refine only.progress_of_history hrun (by rfl) ?_ ho hp
  intro s a s' m h ho
  generalize hst : Observation.recorded p .done = o at ho
  cases h.observed ho with
  | sourceStatus pc =>
    obtain ⟨rfl, -⟩ := Observation.recorded.inj hst
    exact ⟨_, _, rfl, by rintro _ ⟨⟩; rfl⟩
  | sinkStatus pc | readSinkStatus pc =>
    cases hst
    exact ⟨_, _, rfl, by simp⟩
  | _ => simp at hst

theorem WriteSourcePC.held_of_unwritten {pc : WriteSourcePC} (hp : p ∈ pc.unwritten) :
    p ∈ pc.batch ∨ p ∈ pc.held .write := by
  cases pc with
  | wait => simp [unwritten] at hp
  | write q e rest => exact (List.mem_cons.1 hp).symm.imp_right fun h => by simp [held, h]
  | _ => exact .inl hp

theorem direct_eq_popped (iof : ∀ i, D.writeJob i = .iof) (distinct : DistinctKeys acts)
    (complete : Complete D files acts) (single : OneCollector i acts)
    (hrun : run D files acts = some s) :
    (history D files acts).filterMap Observation.writes =
      (history D files acts).filterMap (Observation.poppedBy i) := by
  have early {p : Parcel} {z : Place} (hz : z.publishing = true) (hp : p ∈ s.hold z) : 7 ≤ z.progress := by
    obtain ⟨d, hd⟩ := Published.of_mem hrun hp hz
    exact (distinct.only hd).progress_of_done hrun (complete _ hd) hp
  have written : (s.writeSource i).unwritten = [] := by
    refine List.eq_nil_iff_forall_not_mem.2 fun p hp => ?_
    rcases WriteSourcePC.held_of_unwritten hp with hp | hp
    · have := early (z := .writeBatch i) rfl hp
      simp [Place.progress] at this
    · have := early (z := .writeSource i .write) rfl hp
      simp [Place.progress] at this
  rw [direct_eq iof single hrun, written, List.append_nil]

/-- The deployment with the direct job in the place of the staged one. -/
def Deployment.direct (D : Deployment) : Deployment := { D with writeJob := fun _ => .iof }

/-- Staged and direct write jobs agree.  When a careful collector of `RheaWriteJob` and a collector of
`IOFWriteJob` pop the same sequence of parcels, then after all of them have been processed every
destination has the same contents. -/
theorem staged_eq_direct (rhea : ∀ i, D.writeJob i = .rhea) (distinct : DistinctKeys acts)
    (distinct' : DistinctKeys acts') (full : ExactBuffers acts) (names : NoStagingIds acts)
    (same : ∀ x, x ∈ publishes acts' ↔ x ∈ publishes acts) (single : OneCollector i acts)
    (single' : OneCollector i acts') (order : InEmitOrder D files route acts)
    (careful : CarefulStaging D files acts) (hrun : run D files acts = some s)
    (hrun' : run D.direct files acts' = some s') (complete : Complete D files acts)
    (complete' : Complete D.direct files acts')
    (sequence : (history D.direct files acts').filterMap (Observation.poppedBy i) =
      (history D files acts).filterMap (Observation.poppedBy i))
    (published : Published p acts) : s.files (D.destination p) = s'.files (D.destination p) := by
  have published_iff (q : Parcel) : Published q acts' ↔ Published q acts :=
    exists_congr fun e => same (q, e)
  have staging : NoStaging D.direct (D.direct.destination p) acts' := by
    intro q hq
    exact noStaging_of_names names published q ((published_iff q).1 hq)
  have right : RightData D.direct files (dataOf acts) (D.direct.destination p) acts' := by
    refine ⟨?_, fun pre t j q e _ hpre pc => ?_⟩
    · rintro q ⟨e, he⟩ -
      have he' := (same _).1 he
      rw [distinct.dataOf_eq he']
      exact ⟨distinct'.only he, full _ he'⟩
    · simp [(direct_idle (fun _ => rfl) hpre).2] at pc
  have direct := files_eq_writeAll staging right hrun'
  rw [direct_eq_popped (fun _ => rfl) distinct' complete' single' hrun', sequence] at direct
  have staged := staged_contents rhea distinct full careful names order complete hrun published
  rw [emitted_of_one single hrun, emitted_eq_popped rhea distinct complete hrun] at staged
  exact staged.trans direct.symm

/-- The source runs ahead of the sink, with overlapping ranges. -/
theorem staged_eq_direct_two :
    let p : Parcel := ⟨"f", 0, 2, 0, 0, .publish⟩
    let q : Parcel := ⟨"f", 1, 2, 0, 1, .publish⟩
    let publish : List Action := [.call 0 (.publish p [97, 97]), .client 0, .client 0, .client 0,
      .call 0 (.publish q [98, 98]), .client 0, .client 0, .client 0]
    let acts : List Action := List.flatten
      [publish, List.replicate 14 (.writeSource 0),
        .deliverWrite 0 0 :: List.replicate 4 (.writeSink 0),
        .deliverWrite 0 0 :: List.replicate 4 (.writeSink 0)]
    let D : Deployment := .single .rhea
    ∃ s s', run D (fun _ => none) acts = some s ∧
      run D.direct (fun _ => none) (publish ++ List.replicate 14 (.writeSource 0)) = some s' ∧
      s.files (0, "f") = s'.files (0, "f") := by
  intro p q publish acts D
  let acts' : List Action := publish ++ List.replicate 14 (.writeSource 0)
  have hrun := (Option.some_get (x := run D (fun _ => none) acts) (by decide +kernel)).symm
  have hrun' := (Option.some_get (x := run D.direct (fun _ => none) acts') (by decide +kernel)).symm
  have distinct : DistinctKeys acts := by decide +kernel
  have same : publishes acts' = publishes acts := by decide +kernel
  have order : InEmitOrder D (fun _ => none) (fun _ => 0) acts := by decide +kernel
  exact ⟨_, _, hrun, hrun', staged_eq_direct (i := 0) (p := p) (fun _ => rfl) distinct
    (by decide +kernel) (by decide +kernel) (by decide +kernel) (fun x => by rw [same])
    (by decide +kernel) (by decide +kernel) order (careful_of_distinct distinct (by decide +kernel))
    hrun hrun' (by decide +kernel) (by decide +kernel) (by decide +kernel)
    ⟨[97, 97], by decide +kernel⟩⟩

/-- The second parcel for one position is staged before the sink has handled the first: the sink removes
its staging file and then writes zeros. -/
theorem not_staged_eq_direct :
    let p : Parcel := ⟨"f", 0, 1, 0, 0, .publish⟩
    let q : Parcel := ⟨"f", 0, 1, 0, 1, .publish⟩
    let publish : List Action := [.call 0 (.publish p [97]), .client 0, .client 0, .client 0,
      .call 0 (.publish q [98]), .client 0, .client 0, .client 0]
    let acts : List Action := List.flatten
      [publish, List.replicate 14 (.writeSource 0),
        .deliverWrite 0 0 :: List.replicate 4 (.writeSink 0),
        .deliverWrite 0 0 :: List.replicate 4 (.writeSink 0)]
    let acts' : List Action := publish ++ List.replicate 14 (.writeSource 0)
    let D : Deployment := .single .rhea
    DistinctKeys acts ∧ DistinctKeys acts' ∧ ExactBuffers acts ∧ NoStagingIds acts ∧
      publishes acts' = publishes acts ∧ OneCollector 0 acts ∧ OneCollector 0 acts' ∧
      InEmitOrder D (fun _ => none) (fun _ => 0) acts ∧ Complete D (fun _ => none) acts ∧
      Complete D.direct (fun _ => none) acts' ∧
      (history D.direct (fun _ => none) acts').filterMap (Observation.poppedBy 0) =
        (history D (fun _ => none) acts).filterMap (Observation.poppedBy 0) ∧
      ∃ s s', run D (fun _ => none) acts = some s ∧ run D.direct (fun _ => none) acts' = some s' ∧
        s.files (0, "f") = some [0] ∧ s'.files (0, "f") = some [98] := by
  intro p q publish acts acts' D
  have hrun := (Option.some_get (x := run D (fun _ => none) acts) (by decide +kernel)).symm
  have hrun' := (Option.some_get (x := run D.direct (fun _ => none) acts') (by decide +kernel)).symm
  exact ⟨by decide +kernel, by decide +kernel, by decide +kernel, by decide +kernel,
    by decide +kernel, by decide +kernel, by decide +kernel, by decide +kernel, by decide +kernel,
    by decide +kernel, by decide +kernel, _, _, hrun, hrun', by decide +kernel, by decide +kernel⟩

end Rhea
