import Rhea.ReadPath
import Rhea.Acknowledged

/-!
# Reading what one has written

Nothing orders the read job behind the write job.  `Subscribe` hands back what the same client has
published when the sink of the read acts after the sink of the write (`read_your_writes`), and not
necessarily otherwise (`not_read_your_writes`).
-/

namespace Rhea

open Transition Custody ByteFile

variable {D : Deployment} {files : Files} {acts : List Action} {s s' : Sys} {a : Action}
  {m : Option Handover} {p q : Parcel} {c : ℕ} {d e e' bytes : Bytes} {b : Bool}

/-- Whenever a read sink reads for `q` in the run, the bytes of `p` have been written to their
destination. -/
def ReadsAfterWrite (D : Deployment) (files : Files) (p q : Parcel) (acts : List Action) : Prop :=
  ∀ pre j post t, acts = pre ++ .readSink j :: post → run D files pre = some t →
    t.readSink j = .read q → .written p ∈ history D files pre

theorem ReadsAfterWrite.of_append (h : ReadsAfterWrite D files p q (acts ++ [a])) :
    ReadsAfterWrite D files p q acts := by
  intro pre j post t hacts
  exact h pre j (post ++ [a]) t (by simp [hacts])

/-- It is enough that the write comes before the first action of a read sink. -/
theorem readsAfterWrite_of_written {early more : List Action} (hrun : run D files early = some s)
    (written : .written p ∈ history D files early) (none : ∀ j, .readSink j ∉ early) :
    ReadsAfterWrite D files p q (early ++ more) := by
  intro pre j post t hacts _ _
  rcases split_append hacts with ⟨l, rfl, -⟩ | ⟨l, rfl, -⟩
  · exact absurd (by simp) (none j)
  · rw [history, trace_append (step D) (observe D) l hrun]
    exact List.mem_append_left _ written

/-- The two parcels name the same range of the same file. -/
structure SameRange (D : Deployment) (p q : Parcel) : Prop where
  file : D.destination q = D.destination p
  position : q.position = p.position
  dataSize : q.dataSize = p.dataSize

theorem SameRange.readSinkData_eq (same : SameRange D p q) (full : d.length = p.dataSize)
    {fs : Files} {f : Bytes} (hf : fs (D.destination p) = some f) (holds : Holds f p.position d) :
    readSinkData D fs q = d := by
  have hq : fs (D.getIOClient q.storageIndex, q.id) = some f :=
    (congrArg fs same.file).trans hf
  have hslice : slice f q.position q.dataSize = d := by
    rw [same.position, same.dataSize]
    exact holds.slice_eq full
  simp only [readSinkData, IOClient.read, hq, hslice]
  exact blit_of_length (by simp [full, same.dataSize])

/-- A read after the write reads the published bytes. -/
theorem fetched_of_written (rhea : ∀ i, D.writeJob i = .rhea) (only : PublishOnly p d acts)
    (full : d.length = p.dataSize) (apart : AllApart D p acts) (same : SameRange D p q)
    (after : ReadsAfterWrite D files p q acts) (hrun : run D files acts = some s)
    (ho : .fetched q bytes ∈ history D files acts) : bytes = d := by
  refine run_invariant_under
    (fun acts => (PublishOnly p d acts ∧ AllApart D p acts) ∧ ReadsAfterWrite D files p q acts)
    (fun acts _ => ∀ bytes, .fetched q bytes ∈ history D files acts → bytes = d)
    (fun _ _ ok => ⟨⟨ok.1.1.of_append, ok.1.2.of_append⟩, ok.2.of_append⟩) (by simp) ?_ hrun
    ⟨⟨only, apart⟩, after⟩ bytes ho
  rintro acts a s s' m hrun hstep ⟨⟨only, apart⟩, after⟩ inv h bytes ho
  rw [history_snoc hrun hstep, List.mem_append] at ho
  rcases ho with ho | ho
  · exact inv bytes ho
  · cases h.observed ho with
    | fetched pc =>
      have written := after acts _ [] s rfl hrun pc
      obtain ⟨f, hf, holds⟩ :=
        written_holds rhea only.of_append full apart.of_append hrun written
      exact same.readSinkData_eq full hf holds

/-- The bytes a `Subscribe` hands back are those that were read for it. -/
theorem fetched_of_subscribed (reads : callsOn q.key acts <+: [(c, .subscribe q e)])
    (hrun : run D files acts = some s) (ho : .subscribed q b e' ∈ history D files acts) :
    b = true ∧ ∃ bytes, .fetched q bytes ∈ history D files acts ∧
      e' = blit e (charStruct D.charStructSize bytes) := by
  refine run_invariant_under (fun acts => callsOn q.key acts <+: [(c, .subscribe q e)])
    (fun acts _ => ∀ b e', .subscribed q b e' ∈ history D files acts →
      b = true ∧ ∃ bytes, .fetched q bytes ∈ history D files acts ∧
        e' = blit e (charStruct D.charStructSize bytes))
    (fun acts a reads => ?_) (by simp) ?_ hrun reads b e' ho
  · exact ((List.prefix_append ..).filterMap _ : callsOn q.key acts <+: _).trans reads
  intro acts a s s' m hrun hstep reads inv h b e' ho
  rw [history_snoc hrun hstep] at ho ⊢
  rcases List.mem_append.1 ho with ho | ho
  · obtain ⟨hb, bytes, read, data⟩ := inv b e' ho
    exact ⟨hb, bytes, List.mem_append_left _ read, data⟩
  · have once : ReadOnce c q e acts := ReadOnce.of_append (.inl reads)
    have subscribes {c' : ℕ} {r : Call} (hr : .call c' r ∈ acts)
        (touches : r.touches q.key = true) : r = .subscribe q e := by
      have mem := mem_callsOn.2 ⟨List.mem_append_left [a] hr, touches⟩
      have := reads.subset mem
      simp only [List.mem_singleton, Prod.mk.injEq] at this
      exact this.2
    generalize hst : Observation.subscribed q b e' = o at ho
    cases h.observed ho with
    | subscribed pc =>
      cases hst
      obtain ⟨-, result, d', bytes, last, read, data⟩ :=
        (subscribed_of_client once.oneByOne once.completionsConsumed hrun).2 _ _ _ _ pc rfl
      obtain ⟨c', hr⟩ := call_of_lastRequest hrun last
      cases subscribes hr (by simp [Call.touches, Call.uses])
      refine ⟨result, bytes, List.mem_append_left _ ?_, data⟩
      rw [once.fetched_since hrun] at read
      exact once.fetched_mem hrun (by simp [read])
    | @missed c' _ _ pc | @gotData c' _ _ pc =>
      cases hst
      obtain ⟨r, hr, serves⟩ := (served hrun c').resolve_left (by simp [pc, ClientPC.free])
      rw [pc] at serves
      cases serves
      cases subscribes hr (by simp [Call.touches, Call.uses])
    | _ => simp at hst

/-- A client reads what it has written when the sink of its read acts after the sink of its write.
The other published parcels do not overlap the range and do not use the staging file or the
destination of `p` as theirs. -/
theorem read_your_writes (rhea : ∀ i, D.writeJob i = .rhea)
    (distinct : acts.countP (Action.uses p.key) ≤ 1) (full : d.length = p.dataSize)
    (same : SameRange D p q) (nonzero : ∀ x ∈ d, x ≠ 0) (fits : d.length ≤ D.charStructSize)
    (apart : AllApart D p acts) (after : ReadsAfterWrite D files p q acts)
    (hrun : run D files acts = some s) (published : .call c (.publish p d) ∈ acts)
    (reads : callsOn q.key acts <+: [(c, .subscribe q e)])
    (ho : .subscribed q b e' ∈ history D files acts) : b = true ∧ e' = blit e d := by
  obtain ⟨hb, bytes, read, data⟩ := fetched_of_subscribed reads hrun ho
  have only := PublishOnly.of_mem published distinct
  obtain rfl := fetched_of_written rhea only full apart same after hrun read
  exact ⟨hb, by rw [data, charStruct_eq_self nonzero fits]⟩

/-- A publish is written before the sink of the read acts; nobody waits for it. -/
theorem read_your_writes_single :
    let p : Parcel := ⟨"f", 0, 1, 0, 0, .publish⟩
    let q : Parcel := ⟨"f", 0, 1, 0, 1, .subscribe⟩
    let early : List Action := List.flatten
      [[.call 0 (.publish p [97]), .client 0, .client 0, .client 0, .call 0 (.subscribe q [0]),
          .client 0],
        List.replicate 5 (.readSource 0), [.deliverRead 0 0], List.replicate 8 (.writeSource 0),
        [.deliverWrite 0 0], List.replicate 3 (.writeSink 0)]
    let acts := early ++ [.readSink 0, .readSink 0, .readSink 0, .client 0, .client 0, .client 0,
      .client 0]
    ∃ s, run (.single .rhea) (fun _ => none) acts = some s ∧
      s.client 0 = .returned (.subscribe true [97]) ∧ [97] = blit [0] [(97 : UInt8)] := by
  intro p q early acts
  have hrun := (Option.some_get (x := run (.single .rhea) (fun _ => none) acts)
    (by decide +kernel)).symm
  have apart : AllApart (.single .rhea) p acts := fun r hr hk => by
    obtain ⟨d, hd⟩ := hr
    have only : publishes acts = [(p, [97])] := by decide +kernel
    rw [only, List.mem_singleton] at hd
    cases hd
    exact absurd rfl hk
  have hearly := (Option.some_get (x := run (.single .rhea) (fun _ => none) early)
    (by decide +kernel)).symm
  have after : ReadsAfterWrite (.single .rhea) (fun _ => none) p q acts :=
    readsAfterWrite_of_written hearly (by decide +kernel) (by simp [early])
  exact ⟨_, hrun, by decide +kernel,
    (read_your_writes (p := p) (q := q) (c := 0) (b := true) (d := [97]) (fun _ => rfl) (by decide +kernel) rfl
      ⟨rfl, rfl, rfl⟩ (by simp) (by decide +kernel) apart after hrun (by decide +kernel)
      (by decide +kernel) (by decide +kernel)).2⟩

/-- The sink of the read overtakes the publish, which has returned: `Subscribe` returns `true` and
leaves the caller's buffer as it was. -/
theorem not_read_your_writes :
    let p : Parcel := ⟨"f", 0, 1, 0, 0, .publish⟩
    let q : Parcel := ⟨"f", 0, 1, 0, 1, .subscribe⟩
    let early : List Action := [.call 0 (.publish p [97]), .client 0, .client 0, .client 0]
    let acts : List Action := early ++ List.flatten
      [[.call 0 (.subscribe q [0]), .client 0], List.replicate 5 (.readSource 0),
        [.deliverRead 0 0], List.replicate 3 (.readSink 0), List.replicate 4 (.client 0)]
    publishes acts = [(p, [97])] ∧
      (run (.single .rhea) (fun _ => none) early).map (·.client 0) =
        some (.returned (.publish true)) ∧
      (run (.single .rhea) (fun _ => none) acts).map (·.client 0) =
        some (.returned (.subscribe true [0])) ∧
      blit [0] [(97 : UInt8)] ≠ [0] := by
  decide +kernel

end Rhea
