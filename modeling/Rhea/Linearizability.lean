import Rhea.Service

/-!
# Linearizability

The service follows every run of the system (`Follows.next`, `exists_follows`).  Hence every run is
linearizable (`linearizable`), and a read that is requested after a write has been acknowledged gives
what was written (`acknowledged_write_read`).
-/

namespace Rhea

open Transition Custody ByteFile Deferred

variable {D : Deployment} {files : Files} {acts : List Action} {s s' : Sys} {a : Action}
  {m : Option Handover} {p q : Parcel} {r : Call} {c c' : ℕ} {d e b : Bytes} {k : Key}
  {l : Location} {data : Parcel → Bytes}

/-! ## The run of the service -/

/-- What the clients keep to, as it is used below: one request for each key, published bytes that
arrive at the sinks, and no reads of staging files. -/
structure Disciplined (D : Deployment) (files : Files) (data : Parcel → Bytes)
    (acts : List Action) : Prop where
  one : OneRequest acts
  right : ∀ l, RightData D files data l acts
  reads : ∀ c r p, .call c r ∈ acts → r.reads = some p → NoStaging D (D.destination p) acts

/-- The service has followed the run, and its files have what the writes leave that were made. -/
structure Follows (D : Deployment) (files : Files) (data : Parcel → Bytes) (acts : List Action)
    (t : State Key FileOp Bytes) : Prop where
  run : exec ((fileObject D).step files) .init (events D files acts) = some t
  shows : ∀ l, (fileObject D).after files t.log l =
    writeAll (files l) (writesTo D data l ((history D files acts).filterMap Observation.writes))

theorem Disciplined.of_append (ok : Disciplined D files data (acts ++ [a])) :
    Disciplined D files data acts where
  one := ok.one.of_append
  right l := (ok.right l).of_append
  reads c r p hr reads := (ok.reads c r p (List.mem_append_left _ hr) reads).of_append

namespace Follows

variable {t t' : State Key FileOp Bytes}

/-- In files that are no staging files the service has what the system has. -/
theorem files_eq (follows : Follows D files data acts t) (right : RightData D files data l acts)
    (staging : NoStaging D l acts) (hrun : Rhea.run D files acts = some s) :
    (fileObject D).after files t.log l = s.files l :=
  (follows.shows l).trans (files_eq_writeAll staging right hrun).symm

theorem submit {op : FileOp} (follows : Follows D files data acts t)
    (one : OneRequest (acts ++ [.call c r])) (hrun : Rhea.run D files acts = some s)
    (submits : r.submits = some (k, op)) :
    (fileObject D).step files t (.submit k op) =
      some { t with called := Function.update t.called k (some op) } := by
  apply if_pos
  rw [Option.isNone_iff_eq_none, Option.eq_none_iff_forall_ne_some]
  intro op' called
  have earlier := (Object.called_iff follows.run).1 called
  obtain ⟨c', r', hr, same⟩ := (submit_mem_events hrun).1 earlier
  refine one.unused submits ⟨c', r', hr, ?_⟩
  cases r' <;> cases same <;> simp [Call.uses]

/-- A sink writes at the moment at which a published write takes effect. -/
theorem write (follows : Follows D files data acts t) (rhea : ∀ i, D.writeJob i = .rhea)
    (right : ∀ l, RightData D files data l acts) (hrun : Rhea.run D files acts = some s) {j : ℕ}
    (hp : p ∈ s.hold (.writeSink j .write)) :
    (fileObject D).step files t (.commit p.key []) =
      some { t with log := t.log ++ [⟨p.key, .write p (data p), []⟩] } := by
  have published : Published p acts := .of_mem hrun hp rfl
  have only := ((right _).only p published rfl).1
  obtain ⟨d, hd⟩ := published
  obtain ⟨c, hc⟩ := mem_publishes.1 hd
  cases only.publish c _ hc (by simp [Call.uses])
  refine Object.step_commit ?_ ?_ rfl
  · rw [Object.called_iff follows.run, submit_mem_events hrun]
    exact ⟨c, _, hc, rfl⟩
  · intro logged
    obtain ⟨e, he, hk⟩ := List.mem_map.1 logged
    obtain ⟨q, hq, ho | ho⟩ := commit_mem_events (Object.commit_mem follows.run he)
    · exact only.not_written rhea hrun hp (hq.trans hk) ho
    · exact only.not_fetched hrun (hq.trans hk) ho

/-- A sink reads at the moment at which a read takes effect. -/
theorem read (follows : Follows D files data acts t) (ok : Disciplined D files data acts)
    (hrun : Rhea.run D files acts = some s) {j : ℕ} (hp : p ∈ s.hold (.readSink j .read)) :
    (fileObject D).step files t (.commit p.key (readSinkData D s.files p)) =
      some { t with log := t.log ++ [⟨p.key, .read p, readSinkData D s.files p⟩] } := by
  obtain ⟨c, r, hr, brings⟩ := requested_of_mem hrun hp
  have reads : r.reads = some p := by
    cases r <;> cases brings <;> rfl
  obtain ⟨c', d, once⟩ := ok.one.read c r p hr reads
  refine Object.step_commit ?_ ?_ ?_
  · rw [Object.called_iff follows.run, submit_mem_events hrun]
    refine ⟨c, r, hr, ?_⟩
    cases r <;> cases brings <;> rfl
  · intro logged
    obtain ⟨e, he, hk⟩ := List.mem_map.1 logged
    obtain ⟨q, hq, ho | ho⟩ := commit_mem_events (Object.commit_mem follows.run he)
    · exact once.not_written hrun (hq.trans hk) ho
    · exact once.not_fetched hrun hp (hq.trans hk) ho
  · have same := follows.files_eq (ok.right _) (ok.reads c r p hr reads) hrun
    show readSinkData D _ p = _
    unfold readSinkData IOClient.read
    rw [show (D.getIOClient p.storageIndex, p.id) = D.destination p from rfl, same]

theorem waited (follows : Follows D files data acts t) (rhea : ∀ i, D.writeJob i = .rhea)
    (one : OneRequest acts) (hrun : Rhea.run D files acts = some s) {q' : Parcel}
    (hk : q'.key = q.key) (ho : .recorded q' .done ∈ history D files acts) :
    (fileObject D).step files t (.report q.key .completed) = some t := by
  obtain ⟨b, hb⟩ := commit_of_done rhea one hrun ho
  obtain ⟨e, he, ticket, -⟩ := Object.mem_log follows.run hb
  rw [← hk, ← ticket]
  exact Object.step_report he rfl

theorem returned (follows : Follows D files data acts t) {bytes : Bytes}
    (ho : .fetched q bytes ∈ history D files acts)
    (copied : e = blit d (charStruct D.charStructSize bytes)) :
    (fileObject D).step files t (.report q.key (.data e)) = some t := by
  have hb : .commit q.key bytes ∈ events D files acts := List.mem_filterMap.2 ⟨_, ho, rfl⟩
  obtain ⟨y, hy, ticket, answer⟩ := Object.mem_log follows.run hb
  rw [← ticket]
  refine Object.step_report hy ?_
  show decide (_ = _) = true
  rw [decide_eq_true_eq, answer, copied]
  simp [blit]

theorem silent (follows : Follows D files data acts t) (hrun : Rhea.run D files acts = some s)
    (hstep : Rhea.step D s a = some s')
    (none : ∀ o ∈ observe D s a, o.event = none ∧ o.writes = none) :
    Follows D files data (acts ++ [a]) t where
  run := by
    rw [events_snoc hrun hstep, List.filterMap_eq_nil_iff.2 fun o ho => (none o ho).1,
      List.append_nil]
    exact follows.run
  shows l := by
    rw [history_snoc hrun hstep, List.filterMap_append,
      List.filterMap_eq_nil_iff.2 fun o ho => (none o ho).2, List.append_nil]
    exact follows.shows l

theorem event {o : Observation} {ev : Event Key FileOp Bytes Shown}
    (follows : Follows D files data acts t) (hrun : Rhea.run D files acts = some s)
    (hstep : Rhea.step D s a = some s') (report : observe D s a = [o]) (he : o.event = some ev)
    (taken : (fileObject D).step files t ev = some t')
    (shows : ∀ l, (fileObject D).after files t'.log l = writeAll (files l) (writesTo D data l
      ((history D files acts).filterMap Observation.writes ++ [o].filterMap Observation.writes))) :
    Follows D files data (acts ++ [a]) t' where
  run := by
    rw [events_snoc hrun hstep, report]
    refine (exec_append_eq_some _).2 ⟨t, follows.run, ?_⟩
    simp [he, exec, taken]
  shows l := by
    rw [history_snoc hrun hstep, List.filterMap_append, report]
    exact shows l

/-- The service follows every step. -/
theorem next (follows : Follows D files data acts t) (rhea : ∀ i, D.writeJob i = .rhea)
    (ok : Disciplined D files data (acts ++ [a])) (hrun : Rhea.run D files acts = some s)
    (hstep : Rhea.step D s a = some s') (h : Step D s a s' m) :
    ∃ t', Follows D files data (acts ++ [a]) t' := by
  have before := ok.of_append
  have unwritten : ∀ o : Observation, o.writes = none → ∀ l, (fileObject D).after files t.log l =
      writeAll (files l) (writesTo D data l ((history D files acts).filterMap Observation.writes ++
        [o].filterMap Observation.writes)) := by
    intro o ho l
    simpa [ho] using follows.shows l
  rcases observe_cases D s a with quiet | ⟨o, report⟩
  · exact ⟨t, follows.silent hrun hstep (by simp [quiet])⟩
  have quiet (event : o.event = none) (writes : o.writes = none) :
      ∃ t', Follows D files data (acts ++ [a]) t' :=
    ⟨t, follows.silent hrun hstep (by simp [report, event, writes])⟩
  have ho : o ∈ observe D s a := report ▸ List.mem_singleton_self o
  cases h.observed ho with
  | requested c r free =>
    cases hr : r.submits with
    | none => exact quiet (by simp [Observation.event, hr]) rfl
    | some x =>
      exact ⟨_, follows.event hrun hstep report (by simp [Observation.event, hr])
        (follows.submit ok.one hrun hr) (unwritten _ rfl)⟩
  | @writtenDirect i _ _ _ pc last =>
    simp [rhea i, WriteJob.source, rheaWriteQueueSourceTask] at last
  | @written j p e pc =>
    refine ⟨_, follows.event hrun hstep report rfl
      (follows.write rhea before.right hrun h.mem_src) fun l => ?_⟩
    have full := ((before.right _).only p (.of_mem hrun h.mem_src rfl) rfl).2
    show (fileObject D).after files (_ ++ [_]) l = _
    rw [Object.after_append, show [Observation.written p].filterMap Observation.writes = [p] from rfl,
      writeAll_writesTo_append, ← follows.shows l]
    exact directWrite_apply _ fun _ => slice_zero_of_length full
  | @fetched j p pc =>
    refine ⟨_, follows.event hrun hstep report rfl (follows.read before hrun h.mem_src) fun l => ?_⟩
    show (fileObject D).after files (_ ++ [_]) l = _
    rw [Object.after_append]
    exact unwritten _ rfl l
  | @waited c p r after pc =>
    have waited : .waited p r ∈ history D files (acts ++ [.client c]) := by
      rw [history_snoc hrun hstep]
      exact List.mem_append_right _ ho
    have hrun' := (exec_snoc_eq_some (Rhea.step D)).2 ⟨s, hrun, hstep⟩
    obtain ⟨q', hk, done⟩ := recorded_of_waited hrun' waited
    rw [history_snoc hrun hstep, report] at done
    have done : .recorded q' .done ∈ history D files acts := by simpa using done
    exact ⟨t, follows.event hrun hstep report rfl (follows.waited rhea before.one hrun hk done)
      (unwritten _ rfl)⟩
  | @subscribed c p b e pc =>
    obtain ⟨r, hr, serves⟩ := (served hrun c).resolve_left (by simp [pc, ClientPC.free])
    rw [pc] at serves
    cases serves
    obtain ⟨c', d, once⟩ := before.one.read c _ p hr rfl
    obtain ⟨-, rfl, d', bytes, -, read, copied⟩ :=
      (subscribed_of_client once.oneByOne once.completionsConsumed hrun).2 _ _ _ _ pc rfl
    rw [once.fetched_since hrun] at read
    exact ⟨t, follows.event hrun hstep report rfl
      (follows.returned (once.fetched_mem hrun (by simp [read])) copied) (unwritten _ rfl)⟩
  | @gotData c p e pc =>
    obtain ⟨r, hr, serves⟩ := (served hrun c).resolve_left (by simp [pc, ClientPC.free])
    rw [pc] at serves
    cases serves
    obtain ⟨c', d, once⟩ := before.one.read c _ p hr rfl
    obtain ⟨d', bytes, read, copied⟩ := once.fetched_of_getData hrun pc rfl
    exact ⟨t, follows.event hrun hstep report rfl (follows.returned read copied) (unwritten _ rfl)⟩
  | _ => exact quiet rfl rfl

end Follows

/-- The service follows every run. -/
theorem exists_follows (rhea : ∀ i, D.writeJob i = .rhea) (ok : Disciplined D files data acts)
    (hrun : run D files acts = some s) : ∃ t, Follows D files data acts t := by
  refine run_invariant_under (Disciplined D files data)
    (fun acts _ => ∃ t, Follows D files data acts t) (fun _ _ => Disciplined.of_append) ?_ ?_ hrun ok
  · exact ⟨.init, rfl, fun l => rfl⟩
  · rintro acts a s s' m hrun hstep ok ⟨t, follows⟩ h
    exact follows.next rhea ok hrun hstep h

/-! ## Linearizability -/

theorem NoStagingReads.noStaging (reads : NoStagingReads acts) (hr : .call c r ∈ acts)
    (hp : r.reads = some p) : NoStaging D (D.destination p) acts := by
  rintro q ⟨e, he⟩ h
  exact reads c r p hr hp _ he (congrArg Prod.snd h).symm

theorem Disciplined.of_careful (rhea : ∀ i, D.writeJob i = .rhea) (one : OneRequest acts)
    (full : ExactBuffers acts) (careful : CarefulStaging D files acts) (names : NoStagingIds acts)
    (reads : NoStagingReads acts) : ∃ data, Disciplined D files data acts :=
  ⟨_, one, fun _ => rightData_of_careful rhea one.publish full careful names,
    fun _ _ _ hr hp => reads.noStaging hr hp⟩

/-- Every run is linearizable.  When every key belongs to one request, the collectors of `RheaWriteJob`
are careful and nothing is published to or read from a staging file, the calls and returns of the
clients are explained by a sequence of atomic reads and writes in an order that respects theirs, and
the files have what this sequence leaves. -/
theorem linearizable (rhea : ∀ i, D.writeJob i = .rhea) (one : OneRequest acts)
    (full : ExactBuffers acts) (careful : CarefulStaging D files acts) (names : NoStagingIds acts)
    (reads : NoStagingReads acts) (hrun : run D files acts = some s) :
    ∃ log, Linearization (fileObject D) files (events D files acts) log ∧
      ∀ l, NoStaging D l acts → s.files l = (fileObject D).after files log l := by
  obtain ⟨data, ok⟩ := Disciplined.of_careful rhea one full careful names reads
  obtain ⟨t, follows⟩ := exists_follows rhea ok hrun
  refine ⟨t.log, Object.linearization follows.run, fun l staging => ?_⟩
  exact (follows.files_eq (ok.right l) staging hrun).symm

/-- Overlapping writes of one client, with a read of another client between their sinks. -/
theorem linearizable_three :
    let p : Parcel := ⟨"f", 0, 2, 0, 0, .publish⟩
    let q : Parcel := ⟨"f", 1, 2, 0, 1, .publish⟩
    let x : Parcel := ⟨"f", 0, 2, 0, 2, .subscribe⟩
    let acts : List Action := List.flatten
      [[.call 0 (.publish p [97, 97]), .client 0, .client 0, .client 0,
          .call 0 (.publish q [98, 98]), .client 0, .client 0, .client 0,
          .call 1 (.subscribe x [0, 0]), .client 1],
        List.replicate 14 (.writeSource 0), .deliverWrite 0 0 :: List.replicate 4 (.writeSink 0),
        List.replicate 5 (.readSource 0), .deliverRead 0 0 :: List.replicate 3 (.readSink 0),
        .deliverWrite 0 0 :: List.replicate 4 (.writeSink 0), List.replicate 4 (.client 1)]
    ∃ s, run (.single .rhea) (fun _ => none) acts = some s ∧
      s.client 1 = .returned (.subscribe true [97, 97]) ∧
      ∃ log, Linearization (fileObject (.single .rhea)) (fun _ => none)
          (events (.single .rhea) (fun _ => none) acts) log ∧
        s.files (0, "f") = (fileObject (.single .rhea)).after (fun _ => none) log (0, "f") := by
  intro p q x acts
  have hrun := (Option.some_get (x := run (.single .rhea) (fun _ => none) acts)
    (by decide +kernel)).symm
  have distinct : DistinctKeys acts := by decide +kernel
  have reads : ∀ c r y, .call c r ∈ acts → r.reads = some y → y = x := by
    intro c r y hr hy
    have made : (c = 0 ∧ r = .publish p [97, 97]) ∨ (c = 0 ∧ r = .publish q [98, 98]) ∨
        c = 1 ∧ r = .subscribe x [0, 0] := by simpa [acts] using hr
    rcases made with ⟨-, rfl⟩ | ⟨-, rfl⟩ | ⟨-, rfl⟩ <;> cases hy
    rfl
  have one : OneRequest acts :=
    ⟨distinct, fun c r y hr hy => ⟨1, [0, 0], reads c r y hr hy ▸ by decide +kernel⟩⟩
  have names : NoStagingReads acts := by
    intro c r y hr hy z hz
    rw [reads c r y hr hy]
    revert z
    decide +kernel
  have staging : NoStaging (.single .rhea) (0, "f") acts := by
    have mem : Published p acts := ⟨[97, 97], by decide +kernel⟩
    exact noStaging_of_names (by decide +kernel) mem
  obtain ⟨log, lin, files⟩ := linearizable (fun _ => rfl) one (by decide +kernel)
    (careful_of_distinct distinct (by decide +kernel)) (by decide +kernel) names hrun
  exact ⟨_, hrun, by decide +kernel, log, lin, files _ staging⟩

/-! ## Reading what has been acknowledged -/

/-- In the service the bytes of a write stay in the file while the other writes keep off its range. -/
theorem holds_after {log : List (Entry Key FileOp Bytes)} (full : d.length = p.dataSize)
    (others : ∀ y ∈ log, ∀ q b, y.op = .write q b → q = p ∧ b = d ∨
      (D.destination q = D.destination p →
        p.position + p.dataSize ≤ q.position ∨ q.position + q.dataSize ≤ p.position))
    {y : Entry Key FileOp Bytes} (hy : y ∈ log) (op : y.op = .write p d) :
    ∃ f, (fileObject D).after files log (D.destination p) = some f ∧ Holds f p.position d := by
  induction log using List.reverseRecOn with
  | nil => cases hy
  | append_singleton log last ih =>
    rw [Object.after_append]
    have earlier := fun z (hz : z ∈ log) => others z (List.mem_append_left _ hz)
    cases hlast : last.op with
    | read q =>
      rcases List.mem_append.1 hy with hy | hy
      · exact ih earlier hy
      · obtain rfl := List.mem_singleton.1 hy
        rw [op] at hlast
        cases hlast
    | write q b =>
      show ∃ f, directWrite D _ q b (D.destination p) = some f ∧ _
      rcases others last (by simp) q b hlast with ⟨rfl, rfl⟩ | disjoint
      · rw [directWrite_self, slice_zero_of_length full]
        exact ⟨_, rfl, holds_overlay ..⟩
      · rcases List.mem_append.1 hy with hy | hy
        · obtain ⟨f, hf, holds⟩ := ih earlier hy
          by_cases hl : D.destination q = D.destination p
          · rw [← hl, directWrite_self, hl, hf]
            refine ⟨_, rfl, holds.overlay ?_⟩
            have := slice_length_le b 0 q.dataSize
            have := disjoint hl
            omega
          · exact ⟨f, (directWrite_of_ne _ _ (Ne.symm hl)).trans hf, holds⟩
        · obtain rfl := List.mem_singleton.1 hy
          rw [op] at hlast
          cases hlast
          rw [directWrite_self, slice_zero_of_length full]
          exact ⟨_, rfl, holds_overlay ..⟩

theorem DisjointRanges.positions (disjoint : DisjointRanges acts) (full : FullBuffers acts) :
    DistinctPositions acts := by
  intro x hx y hy hk hid
  have := (full x hx).1
  have := (full y hy).1
  have := disjoint x hx y hy hk hid
  omega

theorem reads_of_subscribed {b' : Bool} (hrun : run D files acts = some s)
    (ho : .subscribed q b' e ∈ history D files acts) :
    ∃ c r, .call c r ∈ acts ∧ r.reads = some q := by
  refine run_invariant (fun acts _ => .subscribed q b' e ∈ history D files acts →
    ∃ c r, .call c r ∈ acts ∧ r.reads = some q) (by simp) ?_ hrun ho
  intro acts a s s' m hrun hstep inv h ho
  rw [history_snoc hrun hstep, List.mem_append] at ho
  have before : ∃ c r, .call c r ∈ acts ∧ r.reads = some q := by
    rcases ho with ho | ho
    · exact inv ho
    · generalize hst : Observation.subscribed q b' e = o at ho
      cases h.observed ho with
      | @subscribed c _ _ _ pc | @gotData c _ _ pc | @missed c _ _ pc _ =>
        cases hst
        obtain ⟨r, hr, serves⟩ := (served hrun c).resolve_left (by simp [pc, ClientPC.free])
        rw [pc] at serves
        cases serves
        exact ⟨c, _, hr, rfl⟩
      | _ => simp at hst
  obtain ⟨c, r, hr, reads⟩ := before
  exact ⟨c, r, List.mem_append_left _ hr, reads⟩

theorem PublishOnly.submits_eq {op : FileOp} (only : PublishOnly p d acts) (hr : .call c r ∈ acts)
    (submits : r.submits = some (p.key, op)) : op = .write p d := by
  obtain rfl := only.publish c r hr (Call.uses_of_submits submits)
  cases submits
  rfl

theorem ReadOnce.submits_eq {op : FileOp} (once : ReadOnce c p d acts) (hr : .call c' r ∈ acts)
    (submits : r.submits = some (p.key, op)) : op = .read p ∧ r.reads = some p := by
  have touches : r.touches p.key = true := by
    simp [Call.touches, Call.uses_of_submits submits]
  rcases (once.cases hr touches).2 with rfl | rfl | rfl | rfl <;> cases submits <;> exact ⟨rfl, rfl⟩

theorem ReadOnce.not_submitted {past : List Observation} {op : FileOp} (once : ReadOnce c p d acts)
    (hrun : run D files acts = some s) (hpast : past ⊆ history D files acts)
    (later : ∀ c r, .requested c r ∈ past → r.reads ≠ some p) :
    .submit p.key op ∉ past.filterMap Observation.event := by
  intro mem
  obtain ⟨o, ho, event⟩ := List.mem_filterMap.1 mem
  cases o with
  | requested c' r =>
    obtain ⟨⟨k, op'⟩, submits, same⟩ := Option.map_eq_some_iff.1 event
    obtain ⟨rfl, rfl⟩ := Event.submit.inj same
    exact later c' r ho (once.submits_eq ((requested_iff hrun).1 (hpast ho)) submits).2
  | subscribed p b e => cases b <;> simp [Observation.event] at event
  | _ => simp [Observation.event] at event

/-- A read that is requested after a write has been acknowledged is shown what was written. -/
theorem shown_of_acknowledged {past future : List Observation} {v : ParcelState}
    (rhea : ∀ i, D.writeJob i = .rhea) (one : OneRequest acts) (full : FullBuffers acts)
    (disjoint : DisjointRanges acts) (names : NoStagingIds acts) (reads : NoStagingReads acts)
    (hrun : run D files acts = some s) (published : .call c (.publish p d) ∈ acts)
    (same : SameRange D p q) (split : history D files acts = past ++ future)
    (waited : .waited p v ∈ past) (later : ∀ c r, .requested c r ∈ past → r.reads ≠ some q)
    (returned : .subscribed q true e ∈ history D files acts) :
    blit e (charStruct D.charStructSize d) = e := by
  have hd := mem_publishes.2 ⟨c, published⟩
  have only := one.publish.only hd
  have exact : ExactBuffers acts := fun x hx => (full x hx).2
  have careful : CarefulStaging D files acts :=
    careful_of_distinct one.publish (disjoint.positions full)
  obtain ⟨data, ok⟩ := Disciplined.of_careful rhea one exact careful names reads
  obtain ⟨t, follows⟩ := exists_follows rhea ok hrun
  obtain ⟨log, lin⟩ : ∃ log, Linearization (fileObject D) files (events D files acts) log :=
    ⟨t.log, Object.linearization follows.run⟩
  obtain ⟨early, late, hlog, submitted, reported⟩ := lin.ordered _ [] (List.append_nil _).symm
  have calls : ∀ z ∈ early, ∃ c r, .call c r ∈ acts ∧ r.submits = some (z.ticket, z.op) :=
    fun z hz => (submit_mem_events hrun).1 (submitted z hz)
  -- the read in the sequence
  obtain ⟨c₁, r₁, hr₁, hq⟩ := reads_of_subscribed hrun returned
  obtain ⟨c₂, d₂, once⟩ := one.read c₁ r₁ q hr₁ hq
  obtain ⟨y, hy, hk, shown⟩ := reported q.key (.data e) (List.mem_filterMap.2 ⟨_, returned, rfl⟩)
  obtain ⟨c₃, r₃, hr₃, submits⟩ := calls y hy
  have op : y.op = .read q := (once.submits_eq hr₃ (hk ▸ submits)).1
  obtain ⟨pre, post, rfl⟩ := List.append_of_mem hy
  have answer := lin.sequential pre y (post ++ late) (by simp [hlog])
  rw [op] at answer
  -- the write comes before it
  have hevents : events D files acts =
      past.filterMap Observation.event ++ future.filterMap Observation.event := by
    rw [events, split, List.filterMap_append]
  have hpast : past ⊆ history D files acts := split ▸ List.subset_append_left past future
  obtain ⟨w, hw, ticket⟩ := lin.before hevents (List.mem_filterMap.2 ⟨_, waited, rfl⟩)
    (fun op' => once.not_submitted hrun hpast later)
    (by simp [hlog] : log = pre ++ y :: (post ++ late)) hk
  have before : ∀ z ∈ pre, z ∈ pre ++ y :: post := fun z hz => List.mem_append_left _ hz
  obtain ⟨c₄, r₄, hr₄, writes⟩ := calls w (before w hw)
  have wop : w.op = .write p d := only.submits_eq hr₄ (ticket ▸ writes)
  -- the other writes keep off its range
  have others : ∀ z ∈ pre, ∀ q b, z.op = .write q b → q = p ∧ b = d ∨
      (D.destination q = D.destination p →
        p.position + p.dataSize ≤ q.position ∨ q.position + q.dataSize ≤ p.position) := by
    intro z hz q' b hop
    obtain ⟨c₅, r₅, hr₅, writes'⟩ := calls z (before z hz)
    rw [hop] at writes'
    obtain ⟨-, rfl⟩ := Call.eq_publish_of_submits writes'
    by_cases hkey : q'.key = p.key
    · cases only.publish c₅ _ hr₅ (by simp [Call.uses, hkey])
      exact .inl ⟨rfl, rfl⟩
    · have hq' := mem_publishes.2 ⟨c₅, hr₅⟩
      exact .inr fun hl => disjoint _ hd _ hq' (Ne.symm hkey) (congrArg Prod.snd hl).symm
  obtain ⟨f, hf, holds⟩ := @holds_after D files p d pre (full _ hd).2 others w hw wop
  have read : y.answer = d := answer.trans (same.readSinkData_eq (full _ hd).2 hf holds)
  have shown : blit e (charStruct D.charStructSize y.answer) = e := of_decide_eq_true shown
  rwa [read] at shown

/-- An acknowledged write is read by everybody.  A read that is requested after the `Wait` for a
published parcel of its range has returned gives `true` and the C string of the published bytes, as
far as a `CharStruct` holds it, whoever reads and whichever sinks serve the two; these are all the
bytes when none is zero and they fit. -/
theorem acknowledged_write_read {past future : List Observation} {v : ParcelState} {b : Bool}
    (rhea : ∀ i, D.writeJob i = .rhea) (one : OneRequest acts) (full : FullBuffers acts)
    (disjoint : DisjointRanges acts) (names : NoStagingIds acts) (reads : NoStagingReads acts)
    (hrun : run D files acts = some s) (published : .call c (.publish p d) ∈ acts)
    (same : SameRange D p q) (split : history D files acts = past ++ future)
    (waited : .waited p v ∈ past) (later : ∀ c r, .requested c r ∈ past → r.reads ≠ some q)
    (returned : .subscribed q b e ∈ history D files acts) :
    b = true ∧ blit e (charStruct D.charStructSize d) = e ∧
      ((∀ x ∈ d, x ≠ 0) → d.length ≤ D.charStructSize → blit e d = e) := by
  obtain ⟨c', r, hr, hq⟩ := reads_of_subscribed hrun returned
  obtain ⟨c₁, d₁, once⟩ := one.read c' r q hr hq
  obtain ⟨-, rfl, -, -⟩ := once.answered hrun returned rfl
  have shown := shown_of_acknowledged rhea one full disjoint names reads hrun published same split
    waited later returned
  refine ⟨rfl, shown, fun nonzero fits => ?_⟩
  rwa [charStruct_eq_self nonzero fits] at shown

/-- A client publishes and waits; then another one reads. -/
theorem acknowledged_write_read_two :
    let p : Parcel := ⟨"f", 0, 1, 0, 0, .publish⟩
    let q : Parcel := ⟨"f", 0, 1, 0, 1, .subscribe⟩
    let early : List Action := List.flatten
      [[.call 0 (.publish p [97]), .client 0, .client 0, .client 0], List.replicate 8 (.writeSource 0),
        .deliverWrite 0 0 :: List.replicate 4 (.writeSink 0),
        [.call 0 (.wait p), .client 0, .client 0]]
    let late : List Action := List.flatten
      [[.call 1 (.subscribe q [0]), .client 1], List.replicate 5 (.readSource 0),
        .deliverRead 0 0 :: List.replicate 3 (.readSink 0), List.replicate 4 (.client 1)]
    ∃ s, run (.single .rhea) (fun _ => none) (early ++ late) = some s ∧
      s.client 1 = .returned (.subscribe true [97]) ∧
      true = true ∧ blit [97] (charStruct 64 [97]) = [(97 : UInt8)] ∧
        ((∀ x ∈ [(97 : UInt8)], x ≠ 0) → 1 ≤ 64 → blit [97] [97] = [(97 : UInt8)]) := by
  intro p q early late
  have hearly := (Option.some_get (x := run (.single .rhea) (fun _ => none) early)
    (by decide +kernel)).symm
  have hrun := (Option.some_get (x := run (.single .rhea) (fun _ => none) (early ++ late))
    (by decide +kernel)).symm
  have calls : ∀ c r, .call c r ∈ early → r.reads = none := by
    intro c r hr
    have made : (c = 0 ∧ r = .publish p [97]) ∨ c = 0 ∧ r = .wait p := by simpa [early] using hr
    rcases made with ⟨-, rfl⟩ | ⟨-, rfl⟩ <;> rfl
  have reads : ∀ c r x, .call c r ∈ early ++ late → r.reads = some x → x = q := by
    intro c r x hr hx
    rcases List.mem_append.1 hr with hr | hr
    · simp [calls c r hr] at hx
    · obtain ⟨-, rfl⟩ : c = 1 ∧ r = .subscribe q [0] := by simpa [late] using hr
      exact (Option.some.inj hx).symm
  have one : OneRequest (early ++ late) :=
    ⟨by decide +kernel, fun c r x hr hx => ⟨1, [0], reads c r x hr hx ▸ by decide +kernel⟩⟩
  have names : NoStagingReads (early ++ late) := by
    intro c r x hr hx y hy
    rw [reads c r x hr hx]
    revert y
    decide +kernel
  refine ⟨_, hrun, by decide +kernel, ?_⟩
  refine acknowledged_write_read (p := p) (q := q) (c := 0) (v := ⟨.done, 0⟩) (fun _ => rfl) one
    (by decide +kernel) (by decide +kernel) (by decide +kernel) names hrun (by decide +kernel)
    ⟨rfl, rfl, rfl⟩ (trace_append _ (observe _) late hearly)
    (by decide +kernel) (fun c r hr => ?_) (by decide +kernel)
  rw [calls c r ((requested_iff hearly).1 hr)]
  exact nofun

end Rhea
