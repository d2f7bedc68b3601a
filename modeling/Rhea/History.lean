import Rhea.Effects

/-!
# Histories of runs

`observe` reports what a step does that the properties speak of: the requests, the pushes and pops
of the write queue, the writes to destinations, the recorded statuses, the bytes a read sink reads,
and the returns of `Wait` and of the calls that hand back data.  `history` is the list of all
reports of a run.  `run_invariant` is the induction over runs; the lemmas after it say from which
call a parcel, a client's program point and an entry of the stores come.
-/

namespace Rhea

open Transition Custody

/-- What is reported of a step. -/
inductive Observation
  /-- a client enters a call -/
  | requested (c : ℕ) (request : Call)
  /-- `write_queue->Push` -/
  | pushed (server : ℕ) (parcel : Parcel)
  /-- the write collector `i` pops -/
  | popped (i : ℕ) (parcel : Parcel)
  /-- the bytes of a parcel are written to its destination -/
  | written (parcel : Parcel)
  /-- a write collector's `DeleteData` -/
  | deleted (parcel : Parcel)
  /-- `parsel_state->Put` -/
  | recorded (parcel : Parcel) (status : TaskStatus)
  /-- `Read` of a read sink, with the bytes it finds -/
  | fetched (parcel : Parcel) (data : Bytes)
  /-- `Wait` erases the entry and returns -/
  | waited (parcel : Parcel) (result : ParcelState)
  /-- `Subscribe` or `GetSubscribedData` returns, with the caller's buffer -/
  | subscribed (parcel : Parcel) (result : Bool) (data : Bytes)
  deriving DecidableEq, Repr

/-- What is reported of the next operation of a client. -/
def ClientPC.observe (warehouse : Key → Option Bytes) : ClientPC → ℕ → List Observation
  | .publishPush p, server => [.pushed server p]
  | .publishState p _, _ => [.recorded p .queued]
  | .waitErase p result _, _ => [.waited p result]
  | .subscribeErase p result data, _ => [.subscribed p result data]
  | .getDataGet p data, _ =>
    if (warehouse p.key).isSome then [] else [.subscribed p false data]
  | .getDataErase p data, _ => [.subscribed p true data]
  | _, _ => []

/-- What is reported of the next operation of a write collector with number `i`. -/
def WriteSourcePC.observe (task : SourceTask) (i : ℕ) (queue : List Parcel) :
    WriteSourcePC → List Observation
  | .pop amount _ => if 0 < amount then (queue.head?.map (.popped i)).toList else []
  | .write p _ _ => if task.linked then [] else [.written p]
  | .deleteData p _ => [.deleted p]
  | .updateStatus p _ _ => [.recorded p task.status]
  | _ => []

variable (D : Deployment)

/-- What is reported of an action. -/
def observe (s : Sys) : Action → List Observation
  | .call c r => [.requested c r]
  | .client c => (s.client c).observe s.warehouse (D.myServer c)
  | .writeSource i =>
    (s.writeSource i).observe (D.writeJob i).source i (s.writeQueue (D.writeServer i))
  | .writeSink j =>
    match s.writeSink j with
    | .write p _ => [.written p]
    | .updateStatus p _ => [.recorded p .done]
    | _ => []
  | .readSource i =>
    match s.readSource i with
    | .updateStatus p _ _ => [.recorded p .inProgress]
    | _ => []
  | .readSink j =>
    match s.readSink j with
    | .read p => [.fetched p (readSinkData D s.files p)]
    | .updateStatus p _ => [.recorded p .done]
    | _ => []
  | .fail _ | .deliverWrite _ _ | .deliverRead _ _ | .tick _ => []

/-- The reports of a run over the files `files`. -/
def history (files : Files) (acts : List Action) : List Observation :=
  trace (step D) (observe D) (Sys.init files) acts

variable {D} {files : Files} {acts : List Action} {s s' : Sys} {a : Action} {m : Option Handover}

@[simp] theorem history_nil : history D files [] = [] := rfl

theorem history_snoc (hrun : run D files acts = some s) (hstep : step D s a = some s') :
    history D files (acts ++ [a]) = history D files acts ++ observe D s a :=
  trace_snoc (step D) (observe D) hrun hstep

theorem observe_sourceNext {i : ℕ} {amount : ℚ} {l : List Parcel}
    (pc : s.writeSource i = .pop amount l)
    (ends : 0 < amount → s.writeQueue (D.writeServer i) = []) :
    observe D s (.writeSource i) = [] := by
  simp only [observe, WriteSourcePC.observe, pc]
  split_ifs with more
  · rw [ends more]
    rfl
  · rfl

/-- What holds initially and is kept by every step holds after every run.  The runs may be
restricted by a prefix-closed condition `O`. -/
theorem run_invariant_under (O : List Action → Prop) (I : List Action → Sys → Prop)
    (prefixClosed : ∀ acts a, O (acts ++ [a]) → O acts) (init : I [] (Sys.init files))
    (next : ∀ acts a s s' m, run D files acts = some s → step D s a = some s' →
      O (acts ++ [a]) → I acts s → Step D s a s' m → I (acts ++ [a]) s')
    (hrun : run D files acts = some s) (hok : O acts) : I acts s := by
  refine exec_invariant (step D) prefixClosed init ?_ hrun hok
  intro acts a s s' hrun hok hinv hstep
  obtain ⟨m, h⟩ := step_sound hstep
  exact next acts a s s' m hrun hstep hok hinv h

theorem run_invariant (I : List Action → Sys → Prop) (init : I [] (Sys.init files))
    (next : ∀ acts a s s' m, run D files acts = some s → step D s a = some s' → I acts s →
      Step D s a s' m → I (acts ++ [a]) s')
    (hrun : run D files acts = some s) : I acts s :=
  run_invariant_under (fun _ => True) I (fun _ _ _ => trivial) init
    (fun acts a s s' m hrun hstep _ => next acts a s s' m hrun hstep) hrun trivial

/-! ## Where everything comes from -/

/-- The program points that a client passes in a call. -/
inductive Serves : Call → ClientPC → Prop
  | publishPut {p d} : Serves (.publish p d) (.publishPut p (d.take p.dataSize))
  | publishPush {p d} : Serves (.publish p d) (.publishPush p)
  | publishState {p d t} : Serves (.publish p d) (.publishState p t)
  | subscribePush {p d} : Serves (.subscribe p d) (.subscribePush p d)
  | subscribeWait {p d} : Serves (.subscribe p d) (.waitGet p (.subscribe d))
  | subscribeWaited {p d r} : Serves (.subscribe p d) (.waitErase p r (.subscribe d))
  | subscribeGet {p d} : Serves (.subscribe p d) (.subscribeGet p d)
  | subscribeErase {p d b e} : Serves (.subscribe p d) (.subscribeErase p b e)
  | asyncPush {p} : Serves (.asyncSubscribe p) (.asyncPush p)
  | getDataGet {p d} : Serves (.getSubscribedData p d) (.getDataGet p d)
  | getDataErase {p d e} : Serves (.getSubscribedData p d) (.getDataErase p e)
  | wait {p} : Serves (.wait p) (.waitGet p .application)
  | waited {p r} : Serves (.wait p) (.waitErase p r .application)
  | waitAll {p l rest states} (mem : p :: rest <:+ l) :
    Serves (.waitAll l) (.waitGet p (.waitAll rest states))
  | waitedAll {p l rest states r} (mem : p :: rest <:+ l) :
    Serves (.waitAll l) (.waitErase p r (.waitAll rest states))

/-- Every client that is not free serves a call of the run. -/
def Served (acts : List Action) (s : Sys) : Prop :=
  ∀ c, (s.client c).free = true ∨ ∃ r, .call c r ∈ acts ∧ Serves r (s.client c)

theorem Serves.free {r : Call} {pc : ClientPC} (h : Serves r pc) : pc.free = false := by
  cases h <;> rfl

theorem serves_clientStart (r : Call) :
    (clientStart r).free = true ∨ Serves r (clientStart r) := by
  cases r with
  | waitAll l =>
    cases l with
    | nil => exact .inl rfl
    | cons p rest => exact .inr (.waitAll (List.suffix_refl _))
  | publish => exact .inr .publishPut
  | subscribe => exact .inr .subscribePush
  | asyncSubscribe => exact .inr .asyncPush
  | getSubscribedData => exact .inr .getDataGet
  | wait => exact .inr .wait

theorem serves_waitReturn {r : Call} {p : Parcel} {result : ParcelState} {after : AfterWait}
    (h : Serves r (.waitErase p result after)) :
    (waitReturn p result after).free = true ∨ Serves r (waitReturn p result after) := by
  cases h with
  | subscribeWaited => exact .inr .subscribeGet
  | waited => exact .inl rfl
  | @waitedAll _ l rest states _ mem =>
    cases rest with
    | nil => exact .inl rfl
    | cons q rest => exact .inr (.waitAll ((List.suffix_cons p _).trans mem))

/-- An operation of a client leaves it free or in the call it serves. -/
theorem Serves.clientStep {c : ℕ} {r : Call} {sh sh' : Shared} {pc pc' : ClientPC}
    (h : Serves r pc) (hstep : clientStep D c sh pc = some (sh', pc')) :
    pc'.free = true ∨ Serves r pc' := by
  cases h
  case subscribeWaited =>
    obtain ⟨-, rfl⟩ := Prod.mk.inj (Option.some.inj hstep)
    exact serves_waitReturn .subscribeWaited
  case waited =>
    obtain ⟨-, rfl⟩ := Prod.mk.inj (Option.some.inj hstep)
    exact serves_waitReturn .waited
  case waitedAll mem =>
    obtain ⟨-, rfl⟩ := Prod.mk.inj (Option.some.inj hstep)
    exact serves_waitReturn (.waitedAll mem)
  all_goals simp only [Rhea.clientStep] at hstep
  all_goals try split at hstep
  all_goals try split_ifs at hstep
  all_goals obtain ⟨-, rfl⟩ := Prod.mk.inj (Option.some.inj hstep)
  all_goals first
    | exact .inl rfl
    | exact .inr (.waitedAll ‹_›)
    | exact .inr (.waitAll ‹_›)
    | (right; constructor)

theorem Serves.clientFail {r : Call} {pc pc' : ClientPC} (h : Serves r pc)
    (hfail : clientFail pc = some pc') : pc'.free = true ∨ Serves r pc' := by
  cases h <;> simp only [Rhea.clientFail, reduceCtorEq, Option.some.injEq] at hfail <;>
    subst hfail
  case subscribePush => exact .inr .subscribeWait
  all_goals exact .inl rfl

/-- What a step does to the program point of a client. -/
theorem step_client (hstep : step D s a = some s') (c : ℕ) :
    s'.client c = s.client c ∨
      (∃ r, a = .call c r ∧ (s.client c).free = true ∧ s'.client c = clientStart r) ∨
      (∃ sh, a = .client c ∧ clientStep D c s.toShared (s.client c) = some (sh, s'.client c)) ∨
      a = .fail c ∧ clientFail (s.client c) = some (s'.client c) := by
  cases a with
  | call c' r =>
    simp only [step] at hstep
    split_ifs at hstep with free
    obtain rfl := Option.some.inj hstep
    rcases eq_or_ne c c' with rfl | hc
    · exact .inr (.inl ⟨r, rfl, free, Function.update_self ..⟩)
    · exact .inl (Function.update_of_ne hc ..)
  | client c' =>
    obtain ⟨⟨sh, pc⟩, hpc, rfl⟩ := Option.map_eq_some_iff.1 hstep
    rcases eq_or_ne c c' with rfl | hc
    · exact .inr (.inr (.inl ⟨sh, rfl, hpc.trans (by simp)⟩))
    · exact .inl (Function.update_of_ne hc ..)
  | fail c' =>
    obtain ⟨pc, hpc, rfl⟩ := Option.map_eq_some_iff.1 hstep
    rcases eq_or_ne c c' with rfl | hc
    · exact .inr (.inr (.inr ⟨rfl, hpc.trans (by simp)⟩))
    · exact .inl (Function.update_of_ne hc ..)
  | writeSource i => exact .inl (Option.some.inj hstep ▸ rfl)
  | readSource i => exact .inl (Option.some.inj hstep ▸ rfl)
  | tick now => exact .inl (Option.some.inj hstep ▸ rfl)
  | writeSink j =>
    obtain ⟨_, _, rfl⟩ := Option.map_eq_some_iff.1 hstep
    exact .inl rfl
  | readSink j =>
    obtain ⟨_, _, rfl⟩ := Option.map_eq_some_iff.1 hstep
    exact .inl rfl
  | deliverWrite j n =>
    simp only [step] at hstep
    split at hstep
    · exact .inl (Option.some.inj hstep ▸ rfl)
    · simp at hstep
  | deliverRead j n =>
    simp only [step] at hstep
    split at hstep
    · exact .inl (Option.some.inj hstep ▸ rfl)
    · simp at hstep

theorem Step.started {c : ℕ} {r : Call} (h : Step D s (.call c r) s' m) :
    s'.client c = clientStart r := by
  cases h
  exact Function.update_self ..

theorem served (hrun : run D files acts = some s) : Served acts s := by
  refine run_invariant Served (fun c => .inl rfl) ?_ hrun
  intro acts a s s' m _ hstep inv h c
  have keep {r : Call} (hr : .call c r ∈ acts) : Action.call c r ∈ acts ++ [a] :=
    List.mem_append_left _ hr
  rcases step_client hstep c with same | ⟨r, rfl, -, hpc⟩ | ⟨sh, rfl, hpc⟩ | ⟨rfl, hpc⟩
  · exact same ▸ (inv c).imp_right (Exists.imp fun _ => And.imp_left keep)
  · exact hpc ▸ (serves_clientStart r).imp id fun hs => ⟨r, by simp, hs⟩
  · rcases inv c with free | ⟨r, hr, hs⟩
    · cases hidle : s.client c <;> rw [hidle] at free hpc <;>
        simp [ClientPC.free, clientStep] at free hpc
    · exact (hs.clientStep hpc).imp id fun hs => ⟨r, keep hr, hs⟩
  · rcases inv c with free | ⟨r, hr, hs⟩
    · cases hidle : s.client c <;> rw [hidle] at free hpc <;>
        simp [ClientPC.free, clientFail] at free hpc
    · exact (hs.clientFail hpc).imp id fun hs => ⟨r, keep hr, hs⟩

theorem quiet_init (files : Files) (k : Key) : Quiet Parcel.key (Sys.init files).hold k := by
  intro z q hq
  cases z with
  | client c st => cases st <;> simp [Sys.hold, Sys.at, Sys.init, ClientPC.held] at hq
  | writeSource i st => cases st <;> simp [Sys.hold, Sys.at, Sys.init, WriteSourcePC.held] at hq
  | writeSink j st => cases st <;> simp [Sys.hold, Sys.at, Sys.init, WriteSinkPC.held] at hq
  | readSink j st => cases st <;> simp [Sys.hold, Sys.at, Sys.init, ReadSinkPC.held] at hq
  | _ => simp [Sys.hold, Sys.at, Sys.init, WriteSourcePC.batch, ReadSourcePC.batch,
      ReadSourcePC.held] at hq

/-- The parcel a call requests, and whether it publishes it. -/
def Call.brings : Call → Option (Parcel × Bool)
  | .publish p _ => some (p, true)
  | .subscribe p _ | .asyncSubscribe p => some (p, false)
  | .getSubscribedData _ _ | .wait _ | .waitAll _ => none

theorem Call.brings_of_handover {c : ℕ} {r : Call} {p : Parcel} {x : Option Place} {y : Place}
    (h : r.handover c = some ⟨p, x, some y⟩) : r.brings = some (p, y.publishing) := by
  cases r <;> cases h <;> rfl

/-- Every parcel in the system was requested, and is on the way of its request. -/
theorem requested_of_mem (hrun : run D files acts = some s) {z : Place} {q : Parcel}
    (hq : q ∈ s.hold z) : ∃ c r, .call c r ∈ acts ∧ r.brings = some (q, z.publishing) := by
  refine run_invariant
    (fun acts s => ∀ z q, q ∈ s.hold z →
      ∃ c r, .call c r ∈ acts ∧ r.brings = some (q, z.publishing)) ?_ ?_ hrun z q hq
  · exact fun z q hq => absurd rfl (quiet_init files q.key z q hq)
  · intro acts a s s' m _ _ inv h z q hq
    have keep {z : Place} (hq : q ∈ s.hold z) :
        ∃ c r, .call c r ∈ acts ++ [a] ∧ r.brings = some (q, z.publishing) := by
      obtain ⟨c, r, hr, hb⟩ := inv z q hq
      exact ⟨c, r, List.mem_append_left _ hr, hb⟩
    rcases h.mem_of_mem hq with hz | ⟨x, rfl⟩
    · exact keep hz
    · rcases h.handover_cases with ⟨c, r, y, rfl, hr, -, -⟩ | ⟨x, hsrc, -⟩
      · exact ⟨c, r, by simp, Call.brings_of_handover hr⟩
      · obtain rfl : _ = some x := hsrc
        exact h.publishing_eq ▸ keep h.mem_src

theorem published_of_mem (hrun : run D files acts = some s) {z : Place} {q : Parcel}
    (hq : q ∈ s.hold z) (hz : z.publishing = true) : ∃ c d, .call c (.publish q d) ∈ acts := by
  obtain ⟨c, r, hr, hb⟩ := requested_of_mem hrun hq
  rw [hz] at hb
  cases r <;> cases hb
  exact ⟨c, _, hr⟩

/-- Whether a call works on the data of key `k`. -/
def Call.uses (k : Key) : Call → Bool
  | .publish p _ | .subscribe p _ | .asyncSubscribe p | .getSubscribedData p _ => p.key = k
  | .wait _ | .waitAll _ => false

/-- The parcels the application waits for. -/
def Call.waits : Call → List Parcel
  | .wait p => [p]
  | .waitAll l => l
  | .publish _ _ | .subscribe _ _ | .asyncSubscribe _ | .getSubscribedData _ _ => []

/-- The parcels for which a call waits, also inside `Subscribe`. -/
def Call.polls : Call → List Parcel
  | .subscribe p _ | .wait p => [p]
  | .waitAll l => l
  | .publish _ _ | .asyncSubscribe _ | .getSubscribedData _ _ => []

/-- Whether a call works on the data of key `k` or waits for it. -/
def Call.touches (k : Key) (r : Call) : Bool := r.uses k || r.waits.any fun p => p.key = k

/-- Whether an action is a call that works on the data of key `k`. -/
def Action.uses (k : Key) : Action → Bool
  | .call _ r => r.uses k
  | _ => false

/-- Some call of the run works on the data of key `k`. -/
def Used (k : Key) (acts : List Action) : Prop := ∃ c r, .call c r ∈ acts ∧ r.uses k = true

theorem Used.append {k : Key} (h : Used k acts) : Used k (acts ++ [a]) := by
  obtain ⟨c, r, hr, hu⟩ := h
  exact ⟨c, r, List.mem_append_left _ hr, hu⟩

theorem Call.uses_of_brings {r : Call} {q : Parcel} {b : Bool} (h : r.brings = some (q, b)) :
    r.uses q.key = true := by
  cases r <;> cases h <;> simp [Call.uses]

theorem used_of_mem (hrun : run D files acts = some s) {z : Place} {q : Parcel}
    (hq : q ∈ s.hold z) : Used q.key acts := by
  obtain ⟨c, r, hr, hb⟩ := requested_of_mem hrun hq
  exact ⟨c, r, hr, Call.uses_of_brings hb⟩

theorem quiet_of_unused (hrun : run D files acts = some s) {k : Key} (unused : ¬ Used k acts) :
    Quiet Parcel.key s.hold k := by
  rintro z q hq rfl
  exact unused (used_of_mem hrun hq)

theorem warehouse_of_unused (hrun : run D files acts = some s) {k : Key} (unused : ¬ Used k acts) :
    s.warehouse k = none := by
  by_contra hne
  refine unused (run_invariant (fun acts s => s.warehouse k ≠ none → Used k acts)
    (fun h => absurd rfl h) ?_ hrun hne)
  intro acts a s s' m hrun _ inv h hne
  rcases h.warehouse_cases k with same | change
  · exact (inv (same ▸ hne)).append
  · generalize s'.warehouse k = v at change hne
    cases change with
    | publishPut pc key => exact key ▸ (used_of_mem hrun h.mem_src).append
    | readSinkPut pc key => exact key ▸ (used_of_mem hrun h.mem_src).append
    | _ => exact absurd rfl hne

theorem parselState_of_unused (hrun : run D files acts = some s) {k : Key}
    (unused : ¬ Used k acts) : s.parselState k = none := by
  by_contra hne
  refine unused (run_invariant (fun acts s => s.parselState k ≠ none → Used k acts)
    (fun h => absurd rfl h) ?_ hrun hne)
  intro acts a s s' m hrun _ inv h hne
  rcases h.parselState_cases k with same | change
  · exact (inv (same ▸ hne)).append
  · generalize s'.parselState k = v at change hne
    cases change with
    | @publishState c p t pc key =>
      rcases served hrun c with free | ⟨r, hr, hs⟩
      · simp [pc, ClientPC.free] at free
      · rw [pc] at hs
        cases hs
        exact ⟨c, _, List.mem_append_left _ hr, by simp [Call.uses, key]⟩
    | waitErase pc key => exact absurd rfl hne
    | _ pc key => exact key ▸ (used_of_mem hrun h.mem_src).append

end Rhea
