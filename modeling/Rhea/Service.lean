import Rhea.Lib.Deferred
import Rhea.ReadYourWrites
import Rhea.Contents

/-!
# The file service

For its clients the library is a file system whose operations take effect later: a `Publish` writes its
bytes at its offset at one moment after the call, a read takes the contents of its file at one moment
after the call, and a `Wait` that has returned says that this moment is over.  `fileObject` is this
service, `Observation.event` says what the reports of a run mean to it.  The lemmas here say which
reports come once, and after which others.
-/

namespace Rhea

open Transition Custody ByteFile Deferred

variable {D : Deployment} {files : Files} {acts : List Action} {s s' : Sys} {a : Action}
  {m : Option Handover} {p q : Parcel} {r : Call} {c c' : ℕ} {d e b : Bytes} {k : Key}
  {l : Location} {data : Parcel → Bytes}

/-! ## The service -/

/-- What a client asks for. -/
inductive FileOp
  | write (parcel : Parcel) (data : Bytes)
  | read (parcel : Parcel)

/-- What a client is shown: that its request is completed, or the bytes in its buffer. -/
inductive Shown
  | completed
  | data (buffer : Bytes)

/-- The files with atomic reads and writes.  A buffer shows the bytes read when copying them into it
once more changes nothing. -/
def fileObject (D : Deployment) : Object FileOp Files Bytes Shown where
  effect
    | .write p d, fs => directWrite D fs p d
    | .read _, fs => fs
  answer
    | .write _ _, _ => []
    | .read p, fs => readSinkData D fs p
  shows
    | _, .completed => true
    | b, .data e => blit e (charStruct D.charStructSize b) = e

/-- The operation a call submits, with the key of its parcel. -/
def Call.submits : Call → Option (Key × FileOp)
  | .publish p d => some (p.key, .write p d)
  | .subscribe p _ | .asyncSubscribe p => some (p.key, .read p)
  | .getSubscribedData _ _ | .wait _ | .waitAll _ => none

/-- What a report means to the service. -/
def Observation.event : Observation → Option (Event Key FileOp Bytes Shown)
  | .requested _ r => r.submits.map fun x => .submit x.1 x.2
  | .written p => some (.commit p.key [])
  | .fetched p b => some (.commit p.key b)
  | .waited p _ => some (.report p.key .completed)
  | .subscribed p true e => some (.report p.key (.data e))
  | _ => none

/-- The events of a run over the files `files`. -/
def events (D : Deployment) (files : Files) (acts : List Action) :
    List (Event Key FileOp Bytes Shown) :=
  (history D files acts).filterMap Observation.event

theorem Call.uses_of_submits {op : FileOp} (h : r.submits = some (k, op)) : r.uses k = true := by
  cases r with
  | publish p d | subscribe p d | asyncSubscribe p =>
    simp only [submits, Option.some.injEq, Prod.mk.injEq] at h
    simp [uses, h.1]
  | _ => simp [submits] at h

theorem Call.eq_publish_of_submits (h : r.submits = some (k, .write p d)) :
    p.key = k ∧ r = .publish p d := by
  cases r with
  | publish q e =>
    simp only [submits, Option.some.injEq, Prod.mk.injEq, FileOp.write.injEq] at h
    obtain ⟨rfl, rfl, rfl⟩ := h
    exact ⟨rfl, rfl⟩
  | _ => simp [submits] at h

theorem events_snoc (hrun : run D files acts = some s) (hstep : step D s a = some s') :
    events D files (acts ++ [a]) =
      events D files acts ++ (observe D s a).filterMap Observation.event := by
  rw [events, history_snoc hrun hstep, List.filterMap_append]
  rfl

/-- The parcel whose data a call reads. -/
def Call.reads : Call → Option Parcel
  | .subscribe p _ | .asyncSubscribe p | .getSubscribedData p _ => some p
  | .publish _ _ | .wait _ | .waitAll _ => none

/-- Every key belongs to one request: to one `Publish`, or to one read of one client. -/
structure OneRequest (acts : List Action) : Prop where
  publish : DistinctKeys acts
  read : ∀ c r p, .call c r ∈ acts → r.reads = some p → ∃ c d, ReadOnce c p d acts

/-- No parcel is read from a file with the name of a staging file of the run. -/
def NoStagingReads (acts : List Action) : Prop :=
  ∀ c r p, .call c r ∈ acts → r.reads = some p → ∀ y ∈ publishes acts, p.id ≠ y.1.stagingName

namespace OneRequest

theorem of_append (one : OneRequest (acts ++ [a])) : OneRequest acts where
  publish := by
    intro x hx
    have hx' : x ∈ publishes (acts ++ [a]) := by
      rw [publishes, List.filterMap_append]
      exact List.mem_append_left _ hx
    exact (List.sublist_append_left acts [a]).countP_le.trans (one.publish x hx')
  read := by
    intro c r p hr reads
    obtain ⟨c', d, once⟩ := one.read c r p (List.mem_append_left _ hr) reads
    exact ⟨c', d, once.of_append⟩

/-- The request to which a key belongs. -/
theorem cases (one : OneRequest acts) (used : Used k acts) :
    (∃ p d, p.key = k ∧ PublishOnly p d acts ∧ Published p acts) ∨
      ∃ c p d, p.key = k ∧ ReadOnce c p d acts := by
  obtain ⟨c, r, hr, hu⟩ := used
  cases r with
  | publish p d =>
    have mem := mem_publishes.2 ⟨c, hr⟩
    exact .inl ⟨p, d, by simpa [Call.uses] using hu, one.publish.only mem, d, mem⟩
  | wait | waitAll => simp [Call.uses] at hu
  | subscribe p d | asyncSubscribe p | getSubscribedData p d =>
    obtain ⟨c', d', once⟩ := one.read c _ p hr rfl
    exact .inr ⟨c', p, d', by simpa [Call.uses] using hu, once⟩

theorem unused (one : OneRequest (acts ++ [.call c r])) {op : FileOp}
    (submits : r.submits = some (k, op)) : ¬ Used k acts := by
  have hr : .call c r ∈ acts ++ [.call c r] := by simp
  have requests : r.requests k = true := by
    cases r <;> cases submits <;> simp [Call.requests, Call.brings]
  cases r with
  | publish p d =>
    cases submits
    have only := one.publish.only (mem_publishes.2 ⟨c, hr⟩)
    exact only.unused (by simp [Action.uses, Call.uses])
  | subscribe p d | asyncSubscribe p =>
    cases submits
    obtain ⟨c', d', once⟩ := one.read c _ p hr rfl
    exact once.unused_of_requests requests
  | getSubscribedData | wait | waitAll => cases submits

end OneRequest

/-! ## What the reports say about the requests -/

theorem requested_iff (hrun : run D files acts = some s) :
    .requested c r ∈ history D files acts ↔ .call c r ∈ acts := by
  refine run_invariant (fun acts _ => .requested c r ∈ history D files acts ↔ .call c r ∈ acts)
    (by simp) ?_ hrun
  intro acts a s s' m hrun hstep inv h
  rw [history_snoc hrun hstep, List.mem_append, List.mem_append, inv, List.mem_singleton]
  apply or_congr_right
  constructor
  · intro ho
    cases h.observed ho
    rfl
  · rintro rfl
    exact List.mem_singleton_self _

theorem published_of_written (hrun : run D files acts = some s)
    (ho : .written q ∈ history D files acts) : Published q acts := by
  refine run_invariant (fun acts _ => .written q ∈ history D files acts → Published q acts)
    (by simp) ?_ hrun ho
  intro acts a s s' m hrun hstep inv h ho
  rw [history_snoc hrun hstep, List.mem_append] at ho
  apply Published.mono ?_ (List.subset_append_left acts [a])
  rcases ho with ho | ho
  · exact inv ho
  · cases h.observed ho with
    | writtenDirect | written => exact .of_mem hrun h.mem_src rfl

theorem requested_of_fetched (hrun : run D files acts = some s)
    (ho : .fetched q b ∈ history D files acts) :
    ∃ c r, .call c r ∈ acts ∧ r.brings = some (q, false) := by
  refine run_invariant (fun acts _ => .fetched q b ∈ history D files acts →
    ∃ c r, .call c r ∈ acts ∧ r.brings = some (q, false)) (by simp) ?_ hrun ho
  intro acts a s s' m hrun hstep inv h ho
  rw [history_snoc hrun hstep, List.mem_append] at ho
  have before : ∃ c r, .call c r ∈ acts ∧ r.brings = some (q, false) := by
    rcases ho with ho | ho
    · exact inv ho
    · cases h.observed ho with
      | fetched => exact requested_of_mem hrun h.mem_src
  obtain ⟨c, r, hr, brings⟩ := before
  exact ⟨c, r, List.mem_append_left _ hr, brings⟩

theorem PublishOnly.not_fetched (only : PublishOnly p d acts) (hrun : run D files acts = some s)
    (hk : q.key = p.key) : .fetched q b ∉ history D files acts := by
  intro ho
  obtain ⟨c, r, hr, brings⟩ := requested_of_fetched hrun ho
  obtain rfl := only.publish c r hr (hk ▸ Call.uses_of_brings brings)
  cases brings

theorem PublishOnly.not_written (rhea : ∀ i, D.writeJob i = .rhea) (only : PublishOnly p d acts)
    (hrun : run D files acts = some s) {j : ℕ} (hp : p ∈ s.hold (.writeSink j .write))
    (hk : q.key = p.key) : .written q ∉ history D files acts := by
  intro ho
  obtain ⟨e, he⟩ := published_of_written hrun ho
  obtain ⟨c, hc⟩ := mem_publishes.1 he
  cases only.publish c _ hc (by simp [Call.uses, hk])
  have late : 12 ≤ (Place.writeSink j .write).progress := by
    refine only.progress_of_history hrun (by rfl) ?_ ho hp
    intro s a s' m h ho
    cases h.observed ho with
    | @writtenDirect i _ _ _ pc last =>
      simp [rhea i, WriteJob.source, rheaWriteQueueSourceTask] at last
    | written => exact ⟨_, _, rfl, by rintro z ⟨⟩; exact le_rfl⟩
  simp [Place.progress] at late

theorem ReadOnce.not_written (once : ReadOnce c p d acts) (hrun : run D files acts = some s)
    (hk : q.key = p.key) : .written q ∉ history D files acts := by
  intro ho
  obtain ⟨e, he⟩ := published_of_written hrun ho
  obtain ⟨c', hc⟩ := mem_publishes.1 he
  have := (once.cases hc (by simp [Call.touches, Call.uses, hk])).2
  simp at this

theorem ReadOnce.not_fetched (once : ReadOnce c p d acts) (hrun : run D files acts = some s)
    {j : ℕ} (hp : p ∈ s.hold (.readSink j .read)) (hk : q.key = p.key) :
    .fetched q b ∉ history D files acts := by
  intro ho
  have unread := (underway once.serial hrun hp rfl).unread rfl le_rfl
  rw [once.fetched_since hrun] at unread
  have mem : b ∈ fetched p.key (history D files acts) :=
    List.mem_filterMap.2 ⟨_, ho, if_pos hk⟩
  simp [unread] at mem

theorem getDataErase_of_clientStep {sh sh' : Shared} {pc : ClientPC}
    (hstep : clientStep D c sh pc = some (sh', .getDataErase q e)) :
    ∃ d value, pc = .getDataGet q d ∧ sh.warehouse q.key = some value ∧
      e = blit d (charStruct D.charStructSize value) := by
  cases pc with
  | getDataGet p d =>
    simp only [clientStep] at hstep
    split at hstep
    next value found =>
      cases hstep
      exact ⟨d, value, rfl, found, rfl⟩
    next => cases hstep
  | waitGet p after =>
    obtain h | ⟨result, h, -⟩ := clientStep_waitGet hstep <;> cases h
  | waitErase p result after =>
    simp only [clientStep, Option.some.injEq, Prod.mk.injEq] at hstep
    cases after with
    | waitAll rest states => cases rest <;> simp [waitReturn, waitAllNext] at hstep
    | _ => simp [waitReturn] at hstep
  | _ => simp [clientStep] at hstep

theorem ReadOnce.fetched_of_getData (once : ReadOnce c p d acts)
    (hrun : run D files acts = some s) (pc : s.client c' = .getDataErase q e) (hk : q.key = p.key) :
    ∃ d' bytes, .fetched p bytes ∈ history D files acts ∧
      e = blit d' (charStruct D.charStructSize bytes) := by
  refine run_invariant_under (ReadOnce c p d)
    (fun acts s => ∀ q e, s.client c' = .getDataErase q e → q.key = p.key →
      ∃ d' bytes, .fetched p bytes ∈ history D files acts ∧
        e = blit d' (charStruct D.charStructSize bytes))
    (fun _ _ => of_append) (fun q e pc => by simp [Sys.init] at pc) ?_ hrun once q e pc hk
  intro acts a s s' m hrun hstep once' inv h q e pc hk
  have once := once'.of_append
  rw [history_snoc hrun hstep]
  have keep : (∃ d' bytes, .fetched p bytes ∈ history D files acts ∧
      e = blit d' (charStruct D.charStructSize bytes)) →
      ∃ d' bytes, .fetched p bytes ∈ history D files acts ++ observe D s a ∧
        e = blit d' (charStruct D.charStructSize bytes) := by
    rintro ⟨d', bytes, read, copied⟩
    exact ⟨d', bytes, List.mem_append_left _ read, copied⟩
  apply keep
  rcases step_client hstep c' with same | ⟨r, -, -, hpc⟩ | ⟨sh, -, hpc⟩ | ⟨-, hpc⟩
  · exact inv q e (same ▸ pc) hk
  · rw [pc] at hpc
    cases r with
    | waitAll l => cases l <;> simp [clientStart, waitAllNext] at hpc
    | _ => simp [clientStart] at hpc
  · rw [pc] at hpc
    obtain ⟨d', value, get, found, copied⟩ := getDataErase_of_clientStep hpc
    obtain ⟨eq, v, waited⟩ := once.waited_of_takes hrun (.inr (.inl get)) hk
    obtain ⟨q', hq', done⟩ := recorded_of_waited hrun waited
    obtain ⟨-, bytes, read, entry⟩ := once.stored_of_done hrun ⟨q', hq', done⟩
    have busy : (s.client c').free = false := by rw [get]; rfl
    have untaken : ¬ TakenIn p.key (history D files acts) := by
      refine once.not_taken hrun busy fun r hs => ?_
      rw [get] at hs
      cases hs
      simp [Call.touches, Call.uses, hk]
    have stored : s.warehouse q.key = some bytes := hk ▸ entry.resolve_right untaken
    obtain rfl := Option.some.inj (stored.symm.trans found)
    exact ⟨d', bytes, once.fetched_mem hrun (by simp [read]), copied⟩
  · cases hc : s.client c' <;> simp [hc, clientFail, pc] at hpc

/-! ## From the reports to the service -/

/-- At most one thing is reported of a step. -/
theorem observe_cases (D : Deployment) (s : Sys) (a : Action) :
    observe D s a = [] ∨ ∃ o, observe D s a = [o] := by
  cases a with
  | call c r => exact .inr ⟨_, rfl⟩
  | client c =>
    simp only [observe]
    cases s.client c with
    | getDataGet p d =>
      simp only [ClientPC.observe]
      split_ifs
      · exact .inl rfl
      · exact .inr ⟨_, rfl⟩
    | _ => simp [ClientPC.observe]
  | writeSource i =>
    simp only [observe]
    cases s.writeSource i with
    | pop amount l =>
      simp only [WriteSourcePC.observe]
      split_ifs
      · cases (s.writeQueue (D.writeServer i)).head? <;> simp
      · exact .inl rfl
    | write p d rest =>
      simp only [WriteSourcePC.observe]
      split_ifs
      · exact .inl rfl
      · exact .inr ⟨_, rfl⟩
    | _ => simp [WriteSourcePC.observe]
  | writeSink j => cases h : s.writeSink j <;> simp [observe, h]
  | readSource i => cases h : s.readSource i <;> simp [observe, h]
  | readSink j => cases h : s.readSink j <;> simp [observe, h]
  | fail | deliverWrite | deliverRead | tick => exact .inl rfl

theorem submit_mem_events {op : FileOp} (hrun : run D files acts = some s) :
    .submit k op ∈ events D files acts ↔ ∃ c r, .call c r ∈ acts ∧ r.submits = some (k, op) := by
  rw [events, List.mem_filterMap]
  constructor
  · rintro ⟨o, ho, event⟩
    cases o with
    | requested c r =>
      obtain ⟨⟨k', op'⟩, submits, same⟩ := Option.map_eq_some_iff.1 event
      cases same
      exact ⟨c, r, (requested_iff hrun).1 ho, submits⟩
    | subscribed p b e => cases b <;> simp [Observation.event] at event
    | _ => simp [Observation.event] at event
  · rintro ⟨c, r, hr, submits⟩
    exact ⟨_, (requested_iff hrun).2 hr, by simp [Observation.event, submits]⟩

theorem commit_mem_events (hc : .commit k b ∈ events D files acts) :
    ∃ q, q.key = k ∧ (.written q ∈ history D files acts ∨ .fetched q b ∈ history D files acts) := by
  obtain ⟨o, ho, event⟩ := List.mem_filterMap.1 hc
  cases o with
  | written p => cases event; exact ⟨p, rfl, .inl ho⟩
  | fetched p b' => cases event; exact ⟨p, rfl, .inr ho⟩
  | requested c r =>
    obtain ⟨x, -, same⟩ := Option.map_eq_some_iff.1 event
    cases same
  | subscribed p b' e => cases b' <;> simp [Observation.event] at event
  | _ => simp [Observation.event] at event

/-- The request of a key with a report of completion has taken effect. -/
theorem commit_of_done (rhea : ∀ i, D.writeJob i = .rhea) (one : OneRequest acts)
    (hrun : run D files acts = some s) (ho : .recorded q .done ∈ history D files acts) :
    ∃ b, .commit q.key b ∈ events D files acts := by
  rcases one.cases (used_of_history hrun ho rfl) with ⟨p, d, hk, only, -⟩ | ⟨c, p, d, hk, once⟩
  · have written := written_of_recorded rhea only hrun hk.symm ho
    exact ⟨[], List.mem_filterMap.2 ⟨_, written, hk ▸ rfl⟩⟩
  · obtain ⟨-, b, read, -⟩ := once.stored_of_done hrun ⟨q, hk.symm, ho⟩
    have mem := once.fetched_mem hrun (show b ∈ _ by simp [read])
    exact ⟨b, List.mem_filterMap.2 ⟨_, mem, hk ▸ rfl⟩⟩

end Rhea
