import Rhea.Staging

/-!
# Acknowledged writes are in the file

`Wait` returns only after `DONE` has been recorded, the sink records `DONE` only after it has written
the bytes to the destination, and there they stay (`acknowledged_write_holds`).
-/

namespace Rhea

open Transition Custody ByteFile

variable {D : Deployment} {files : Files} {acts : List Action} {s s' : Sys} {a : Action}
  {m : Option Handover} {p q : Parcel} {d : Bytes}

/-! ## Runs of publishes -/

/-- Every published parcel has a key of its own: no other call of the run uses it. -/
def DistinctKeys (acts : List Action) : Prop :=
  ∀ x ∈ publishes acts, acts.countP (Action.uses x.1.key) ≤ 1

/-- Every published range has a byte. -/
def NonemptyRanges (acts : List Action) : Prop := ∀ x ∈ publishes acts, 0 < x.1.dataSize

/-- Every published parcel comes with exactly `data_size_` bytes, at least one. -/
def FullBuffers (acts : List Action) : Prop :=
  ∀ x ∈ publishes acts, 0 < x.1.dataSize ∧ x.2.length = x.1.dataSize

/-- The ranges that are published to one file are disjoint. -/
def DisjointRanges (acts : List Action) : Prop :=
  ∀ x ∈ publishes acts, ∀ y ∈ publishes acts, x.1.key ≠ y.1.key → x.1.id = y.1.id →
    x.1.position + x.1.dataSize ≤ y.1.position ∨ y.1.position + y.1.dataSize ≤ x.1.position

/-- No parcel is published to a file with the name of a staging file of the run. -/
def NoStagingIds (acts : List Action) : Prop :=
  ∀ x ∈ publishes acts, ∀ y ∈ publishes acts, x.1.id ≠ y.1.stagingName

instance : Decidable (DistinctKeys acts) :=
  inferInstanceAs (Decidable (∀ x ∈ publishes acts, _))

instance : Decidable (NonemptyRanges acts) :=
  inferInstanceAs (Decidable (∀ x ∈ publishes acts, _))

instance : Decidable (FullBuffers acts) :=
  inferInstanceAs (Decidable (∀ x ∈ publishes acts, _))

instance : Decidable (DisjointRanges acts) :=
  inferInstanceAs (Decidable (∀ x ∈ publishes acts, ∀ y ∈ publishes acts, _ → _ → _))

instance : Decidable (NoStagingIds acts) :=
  inferInstanceAs (Decidable (∀ x ∈ publishes acts, ∀ y ∈ publishes acts, _))

theorem FullBuffers.nonempty (full : FullBuffers acts) : NonemptyRanges acts :=
  fun x hx => (full x hx).1

theorem Published.size_pos (h : Published p acts) (nonempty : NonemptyRanges acts) :
    0 < p.dataSize := by
  obtain ⟨d, hd⟩ := h
  exact nonempty _ hd

theorem staging_ne_of_disjoint (nonempty : NonemptyRanges acts) (disjoint : DisjointRanges acts)
    (hp : Published p acts) (hq : Published q acts) (hk : p.key ≠ q.key) :
    D.staging p ≠ D.staging q := by
  intro h
  obtain ⟨hid, hpos⟩ := D.staging_inj h
  have := hp.size_pos nonempty
  have := hq.size_pos nonempty
  obtain ⟨d, hd⟩ := hp
  obtain ⟨e, he⟩ := hq
  have apart : p.position + p.dataSize ≤ q.position ∨ q.position + q.dataSize ≤ p.position :=
    disjoint _ hd _ he hk hid
  omega

theorem allApart_of_disjoint (full : FullBuffers acts) (disjoint : DisjointRanges acts)
    (names : NoStagingIds acts) (hp : Published p acts) : AllApart D p acts := by
  intro q hq hk
  obtain ⟨d, hd⟩ := id hp
  obtain ⟨e, he⟩ := id hq
  refine ⟨staging_ne_of_disjoint full.nonempty disjoint hq hp hk, fun h => ?_, fun h => ?_, fun h => ?_⟩
  · exact names _ hd _ he (congrArg Prod.snd h).symm
  · exact names _ he _ hd (congrArg Prod.snd h)
  · exact disjoint _ hd _ he hk.symm (congrArg Prod.snd h).symm

/-! ## From `DONE` to the file -/

theorem Step.written_mem_observe {x : Option Place} {j : ℕ}
    (h : Step D s a s' (some ⟨p, x, some (.writeSink j .updateStatus)⟩)) :
    .written p ∈ observe D s a := by
  generalize hm : some (Handover.mk p x (some (.writeSink j .updateStatus))) = l at h
  cases h
  case call c r free => cases r <;> cases hm
  case sourceEmit i q rest pc =>
    simp only [Option.some.injEq, Handover.mk.injEq, Deployment.emitDst] at hm
    split_ifs at hm <;> simp at hm
  case sinkWrite j q e pc =>
    cases hm
    simp [observe, pc]
  all_goals cases hm

theorem written_of_mem (only : PublishOnly p d acts) (hrun : run D files acts = some s) {j : ℕ}
    (hp : p ∈ s.hold (.writeSink j .updateStatus)) : .written p ∈ history D files acts := by
  refine only.place_invariant
    (fun acts z _ => ∀ j, z = .writeSink j .updateStatus → .written p ∈ history D files acts)
    ?_ ?_ hrun hp j rfl
  · intro acts a s s' m z hrun hstep _ _ _ _ inv j hz
    rw [history_snoc hrun hstep]
    exact List.mem_append_left _ (inv j hz)
  · rintro acts a s s' x z hrun hstep _ h _ j rfl
    rw [history_snoc hrun hstep]
    exact List.mem_append_right _ h.written_mem_observe

/-- `DONE` is recorded for a parcel only after it has been written. -/
theorem written_of_recorded (rhea : ∀ i, D.writeJob i = .rhea) (only : PublishOnly p d acts)
    (hrun : run D files acts = some s) (hk : q.key = p.key)
    (ho : .recorded q .done ∈ history D files acts) : .written p ∈ history D files acts := by
  refine run_invariant_under (PublishOnly p d)
    (fun acts _ => ∀ q, q.key = p.key → .recorded q .done ∈ history D files acts →
      .written p ∈ history D files acts)
    (fun _ _ => PublishOnly.of_append) (by simp) ?_ hrun only q hk ho
  intro acts a s s' m hrun hstep only inv h q hk ho
  rw [history_snoc hrun hstep, List.mem_append] at ho ⊢
  rcases ho with ho | ho
  · exact .inl (inv q hk ho)
  · generalize hst : Observation.recorded q .done = o at ho
    cases h.observed ho with
    | @sourceStatus i p' t rest pc =>
      simp [rhea i, WriteJob.source, rheaWriteQueueSourceTask] at hst
    | sinkStatus pc =>
      cases hst
      obtain ⟨rfl, -⟩ := only.of_append.eq_of_mem hrun h.mem_src hk
      exact .inl (written_of_mem only.of_append hrun h.mem_src)
    | readSinkStatus pc =>
      cases hst
      have side := (only.of_append.eq_of_mem hrun h.mem_src hk).2
      simp [Place.publishing] at side
    | _ => simp at hst

/-- Acknowledged writes are in the file.  In every state of a run in which a `Wait` for the
published parcel `p` has returned, its destination has the published bytes at its offset. -/
theorem acknowledged_write_holds {c : ℕ} {r : ParcelState} (rhea : ∀ i, D.writeJob i = .rhea)
    (distinct : DistinctKeys acts) (full : FullBuffers acts) (disjoint : DisjointRanges acts)
    (names : NoStagingIds acts) (hrun : run D files acts = some s)
    (published : .call c (.publish p d) ∈ acts) (waited : .waited p r ∈ history D files acts) :
    ∃ f, s.files (D.destination p) = some f ∧ Holds f p.position d := by
  have mem := mem_publishes.2 ⟨c, published⟩
  have only := PublishOnly.of_mem published (distinct _ mem)
  obtain ⟨q, hq, recorded⟩ := recorded_of_waited hrun waited
  refine written_holds rhea only (full _ mem).2 ?_ hrun
    (written_of_recorded rhea only hrun hq recorded)
  exact allApart_of_disjoint full disjoint names ⟨d, mem⟩

/-- Two clients publish to one file and wait. -/
theorem acknowledged_write_holds_two :
    let p : Parcel := ⟨"f", 0, 2, 0, 0, .publish⟩
    let q : Parcel := ⟨"f", 2, 1, 0, 1, .publish⟩
    let acts : List Action := List.flatten
      [[.call 0 (.publish p [97, 98]), .client 0, .call 1 (.publish q [99]), .client 1, .client 0,
          .client 0, .client 1, .client 1],
        List.replicate 16 (.writeSource 0), [.deliverWrite 1 1, .deliverWrite 0 0],
        List.replicate 4 (.writeSink 1), List.replicate 4 (.writeSink 0),
        [.call 0 (.wait p), .client 0, .client 0]]
    ∃ s, run (.single .rhea) (fun _ => none) acts = some s ∧
      ∃ f, s.files (0, "f") = some f ∧ Holds f 0 [97, 98] := by
  intro p q acts
  have hrun := (Option.some_get (x := run (.single .rhea) (fun _ => none) acts)
    (by decide +kernel)).symm
  exact ⟨_, hrun, acknowledged_write_holds (p := p) (c := 0) (r := ⟨.done, 0⟩) (fun _ => rfl)
    (by decide +kernel) (by decide +kernel) (by decide +kernel) (by decide +kernel) hrun
    (by decide +kernel) (by decide +kernel)⟩

end Rhea
