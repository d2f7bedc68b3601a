import Rhea.Regulator.Locks

/-!
# The locked sections are atomic

The steps of the threads, one operation on a mutex or a map each, do no more than the locked sections of
`stepSection`: a section takes place at its access to a map, and the two lookups for a job at the
second one, since the shared lock on `in_mutex` keeps the input rate what it was
(`threads_refine_sections`).
-/

namespace Rhea.ByteflowRegulator

open Transition

variable {conf : Configuration} {yields : Bool} {s s' : Threads} {a : ThreadAction}
  {acts : List ThreadAction} {c : ℕ} {r : Regulator} {op : Operation} {u : Update}
  {rest : List Update}

/-- Where a caller of the sections is when these assignments of its call are left. -/
def Operation.pending (op : Operation) : List Update → Caller
  | [] => .idle
  | u :: _ =>
    match op, u.direction with
    | .registerJob jobId, .outRate => .registerOut jobId
    | .finalizeJob jobId, .outRate => .finalizeOut jobId
    | _, _ => .idle

/-- Where a thread is as a caller of the sections. -/
def CallerPC.caller : CallerPC → Caller
  | .idle => .idle
  | .lock op u rest | .blocked op u rest | .assign op u rest => op.pending (u :: rest)
  | .unlock op _ rest => op.pending rest

/-- Where the daemon is as a pass. -/
def DaemonPC.pass (conf : Configuration) : DaemonPC → Pass
  | .idle | .keysLock | .keysRead => .idle
  | .keysUnlock jobs | .inLock jobs => .lookup jobs
  | .outLock job jobs | .readIn job jobs | .readOut job _ jobs => .lookup (job :: jobs)
  | .outUnlock job inRate outRate jobs | .inUnlock job inRate outRate jobs =>
    if imbalanced conf outRate inRate then .alterNodes job outRate inRate jobs else .lookup jobs
  | .alterNodes job inRate outRate jobs => .alterNodes job outRate inRate jobs

/-- The section that makes an assignment. -/
def Operation.section (op : Operation) (c : ℕ) (u : Update) : Section :=
  match op, u.direction with
  | .registerJob jobId, .inRate => .registerIn c jobId
  | .registerJob _, .outRate => .registerOut c
  | .finalizeJob jobId, .inRate => .finalizeIn c jobId
  | .finalizeJob _, .outRate => .finalizeOut c
  | .setInRate jobId inRate, _ => .setInRate c jobId inRate
  | .setOutRate jobId outRate, _ => .setOutRate c jobId outRate

/-- The section that takes place at a step of a thread. -/
def Threads.sections (s : Threads) : ThreadAction → List Section
  | .call _ _ => []
  | .caller c =>
    match s.callers c with
    | .assign op u _ => [op.section c u]
    | _ => []
  | .keys order => [.snapshot 0 order]
  | .daemon =>
    match s.daemon with
    | .readOut _ _ _ => [.lookup 0]
    | .alterNodes _ _ _ _ => [.alterNodes 0]
    | .inLock [] => [.finish 0]
    | _ => []

/-- What is seen of a step of a thread. -/
def observeThread (conf : Configuration) (s : Threads) : ThreadAction → List RegulatorEvent
  | .caller c =>
    match s.callers c with
    | .assign (.registerJob jobId) u _ => if u.direction = .outRate then [.registered jobId] else []
    | .assign (.finalizeJob jobId) u _ => if u.direction = .outRate then [.finalized jobId] else []
    | _ => []
  | .daemon =>
    match s.daemon with
    | .alterNodes job inRate outRate _ => [.sent (alterNodes conf job.toUInt16 outRate inRate)]
    | _ => []
  | _ => []

/-! ## The calls under way -/

/-- The assignments that a thread has yet to make are the last ones of its call. -/
def CallerPC.Proper : CallerPC → Prop
  | .idle => True
  | .lock op u rest | .blocked op u rest | .assign op u rest | .unlock op u rest =>
    u :: rest <:+ op.updates

theorem CallerPC.next_proper (h : u :: rest <:+ op.updates) : (CallerPC.next op rest).Proper := by
  cases rest with
  | nil => trivial
  | cons v rest => exact (List.suffix_cons u _).trans h

theorem next_proper (op : Operation) : (CallerPC.next op op.updates).Proper := by
  cases op <;> exact List.suffix_rfl

theorem proper (hrun : runThreads conf yields acts = some s) (c : ℕ) : (s.callers c).Proper := by
  refine thread_invariant (fun _ s => ∀ c, (s.callers c).Proper) (fun c => trivial) ?_ hrun c
  intro acts a s s' _ inv _ h c'
  have moved {c : ℕ} {pc : CallerPC} (m : Threads) (same : m.callers = s.callers) (hp : pc.Proper) :
      ((m.setCaller c pc).callers c').Proper := by
    rw [setCaller_callers, same]
    split_ifs
    · exact hp
    · exact inv c'
  cases h with
  | @call c op pc => exact moved s rfl (next_proper op)
  | @lock c op u rest pc =>
    have before := inv c
    rw [pc] at before
    exact moved (s.setMutex _ _) rfl before
  | @acquire c op u rest m pc hm =>
    have before := inv c
    rw [pc] at before
    exact moved (s.setMutex _ _) rfl before
  | @assign c op u rest pc =>
    have before := inv c
    rw [pc] at before
    exact moved { s with server := _ } rfl before
  | @unlock c op u rest pc =>
    have before := inv c
    rw [pc] at before
    exact moved (s.setMutex _ _) rfl (CallerPC.next_proper before)
  | _ => exact inv c'

/-- The assignments of the calls, with the section that makes each. -/
inductive Assigning : Operation → Update → List Update → Prop
  | registerIn (j : JobId) :
    Assigning (.registerJob j) ⟨.inRate, j, 0⟩ [⟨.outRate, j, 0⟩]
  | registerOut (j : JobId) : Assigning (.registerJob j) ⟨.outRate, j, 0⟩ []
  | finalizeIn (j : JobId) :
    Assigning (.finalizeJob j) ⟨.inRate, j, 0⟩ [⟨.outRate, j, 0⟩]
  | finalizeOut (j : JobId) : Assigning (.finalizeJob j) ⟨.outRate, j, 0⟩ []
  | setInRate (j : JobId) (inRate : UInt32) :
    Assigning (.setInRate j inRate) ⟨.inRate, j, inRate⟩ []
  | setOutRate (j : JobId) (outRate : UInt32) :
    Assigning (.setOutRate j outRate) ⟨.outRate, j, outRate⟩ []

theorem assigning (h : u :: rest <:+ op.updates) : Assigning op u rest := by
  cases op with
  | registerJob j =>
    simp only [Operation.updates, List.suffix_cons_iff, List.cons.injEq, List.suffix_nil,
      reduceCtorEq, or_false] at h
    rcases h with ⟨rfl, rfl⟩ | ⟨rfl, rfl⟩
    · exact .registerIn j
    · exact .registerOut j
  | finalizeJob j =>
    simp only [Operation.updates, List.suffix_cons_iff, List.cons.injEq, List.suffix_nil,
      reduceCtorEq, or_false] at h
    rcases h with ⟨rfl, rfl⟩ | ⟨rfl, rfl⟩
    · exact .finalizeIn j
    · exact .finalizeOut j
  | setInRate j inRate =>
    simp only [Operation.updates, List.suffix_cons_iff, List.cons.injEq, List.suffix_nil,
      reduceCtorEq, or_false] at h
    obtain ⟨rfl, rfl⟩ := h
    exact .setInRate j inRate
  | setOutRate j outRate =>
    simp only [Operation.updates, List.suffix_cons_iff, List.cons.injEq, List.suffix_nil,
      reduceCtorEq, or_false] at h
    obtain ⟨rfl, rfl⟩ := h
    exact .setOutRate j outRate

/-! ## The simulation -/

/-- The sections have come to the same maps and program points. -/
structure Represents (conf : Configuration) (s : Threads) (r : Regulator) : Prop where
  server : r.server = s.server
  callers : ∀ c, r.callers c = (s.callers c).caller
  pass : r.passes 0 = s.daemon.pass conf

/-- A step of the threads at which no section takes place. -/
theorem Represents.stutter (rep : Represents conf s r) (server : s'.server = s.server)
    (callers : ∀ c, (s'.callers c).caller = (s.callers c).caller)
    (pass : s'.daemon.pass conf = s.daemon.pass conf) : Represents conf s' r where
  server := rep.server.trans server.symm
  callers c := (rep.callers c).trans (callers c).symm
  pass := rep.pass.trans pass.symm

theorem next_caller (op : Operation) (rest : List Update) :
    (CallerPC.next op rest).caller = op.pending rest := by
  cases rest <;> rfl

theorem pending_updates (op : Operation) : op.pending op.updates = .idle := by
  cases op <;> rfl

theorem Represents.setCaller {pc : CallerPC} (rep : Represents conf s r)
    (h : pc.caller = (s.callers c).caller) : Represents conf (s.setCaller c pc) r := by
  refine rep.stutter rfl (fun c' => ?_) rfl
  rw [setCaller_callers]
  split_ifs with hc
  · rw [h, hc]
  · rfl

theorem Represents.setDaemon {pc : DaemonPC} {x : Pass} (rep : Represents conf s r)
    (h : pc.pass conf = x) : Represents conf (s.setDaemon pc)
      { r with passes := Function.update r.passes 0 x } where
  server := rep.server
  callers := rep.callers
  pass := by
    rw [setDaemon_daemon, h]
    exact @Function.update_self ℕ (fun _ => Pass) _ 0 x r.passes

theorem Represents.assign (rep : Represents conf s r) (pc : s.callers c = .assign op u rest)
    (h : Assigning op u rest) :
    ∃ r', stepSection conf r (op.section c u) = some r' ∧
      Represents conf ({ s with server := s.server.assign u }.setCaller c (.unlock op u rest)) r' ∧
      observe conf r (op.section c u) = observeThread conf s (.caller c) := by
  have at_ : r.callers c = op.pending (u :: rest) := by
    rw [rep.callers, pc]
    rfl
  have moved {r' : Regulator} (server : r'.server = s.server.assign u)
      (callers : ∀ c', r'.callers c' = if c' = c then op.pending rest else r.callers c')
      (passes : r'.passes = r.passes) :
      Represents conf ({ s with server := s.server.assign u }.setCaller c (.unlock op u rest)) r' := by
    refine ⟨server, fun c' => ?_, passes ▸ rep.pass⟩
    rw [callers, setCaller_callers]
    split_ifs
    · rfl
    · exact rep.callers c'
  have updated (pc' : Caller) (c' : ℕ) :
      Function.update r.callers c pc' c' = if c' = c then pc' else r.callers c' :=
    Function.update_apply ..
  cases h with
  | registerIn j =>
    refine ⟨{ r with
      server := r.server.clearIn j
      callers := Function.update r.callers c (.registerOut j) }, if_pos at_,
      moved ?_ (updated _) rfl, ?_⟩
    · rw [rep.server]
      rfl
    · simp [Operation.section, observe, observeThread, pc]
  | finalizeIn j =>
    refine ⟨{ r with
      server := r.server.clearIn j
      callers := Function.update r.callers c (.finalizeOut j) }, if_pos at_,
      moved ?_ (updated _) rfl, ?_⟩
    · rw [rep.server]
      rfl
    · simp [Operation.section, observe, observeThread, pc]
  | registerOut j =>
    have at_ : r.callers c = .registerOut j := at_
    refine ⟨{ r with
      server := r.server.clearOut j
      callers := Function.update r.callers c .idle }, ?_, moved ?_ (updated _) rfl, ?_⟩
    · simp only [Operation.section, stepSection, at_]
      rfl
    · rw [rep.server]
      rfl
    · simp [Operation.section, observe, observeThread, pc, at_]
  | finalizeOut j =>
    have at_ : r.callers c = .finalizeOut j := at_
    refine ⟨{ r with
      server := r.server.clearOut j
      callers := Function.update r.callers c .idle }, ?_, moved ?_ (updated _) rfl, ?_⟩
    · simp only [Operation.section, stepSection, at_]
      rfl
    · rw [rep.server]
      rfl
    · simp [Operation.section, observe, observeThread, pc, at_]
  | setInRate j rate =>
    refine ⟨{ r with server := r.server.setInRate j rate }, if_pos at_,
      moved ?_ (fun c' => ?_) rfl, ?_⟩
    · rw [rep.server]
      rfl
    · split_ifs with hc
      · rw [hc, at_]
        rfl
      · rfl
    · simp [Operation.section, observe, observeThread, pc]
  | setOutRate j rate =>
    refine ⟨{ r with server := r.server.setOutRate j rate }, if_pos at_,
      moved ?_ (fun c' => ?_) rfl, ?_⟩
    · rw [rep.server]
      rfl
    · split_ifs with hc
      · rw [hc, at_]
        rfl
      · rfl
    · simp [Operation.section, observe, observeThread, pc]

/-- The two lookups for a job are one section: the input rate is still what it was. -/
theorem Represents.lookup {job : JobId} {inRate : UInt32} {jobs : List JobId}
    (rep : Represents conf s r) (scanned : Scanned s) (pc : s.daemon = .readOut job inRate jobs) :
    ∃ r', stepSection conf r (.lookup 0) = some r' ∧
      Represents conf ({ s with
        server := ⟨s.server.inRateMap, (s.server.outRateMap.subscript job.toUInt16).2⟩
        }.setDaemon (.outUnlock job inRate (s.server.outRateMap.rate job.toUInt16) jobs)) r' := by
  have at_ : r.passes 0 = .lookup (job :: jobs) := by
    rw [rep.pass, pc]
    rfl
  have known : job.toUInt16 ∈ s.server.inRateMap := by
    apply scanned.known
    rw [pc]
    exact List.mem_cons_self
  have read := scanned.read job inRate jobs pc
  refine ⟨{ r with
    server := s.server.visited job.toUInt16
    passes := Function.update r.passes 0
      (if imbalanced conf (s.server.outRateMap.rate job.toUInt16) inRate then
        .alterNodes job (s.server.outRateMap.rate job.toUInt16) inRate jobs
      else .lookup jobs) }, ?_, ?_, rep.callers, ?_⟩
  · simp only [stepSection, at_, readRates_rates, rep.server]
    rw [← read]
    rfl
  · show s.server.visited job.toUInt16 = _
    unfold Server.visited
    rw [subscript_of_mem known]
    rfl
  · exact @Function.update_self ℕ (fun _ => Pass) _ 0 _ r.passes

/-- Every step of the threads is one section or none. -/
theorem Represents.next (rep : Represents conf s r) (scanned : Scanned s)
    (proper : ∀ c, (s.callers c).Proper) (h : ThreadStep conf yields s a s') :
    ∃ r', exec (stepSection conf) r (s.sections a) = some r' ∧ Represents conf s' r' ∧
      trace (stepSection conf) (observe conf) r (s.sections a) = observeThread conf s a := by
  have silent (none : s.sections a = []) (quiet : observeThread conf s a = [])
      (rep : Represents conf s' r) : ∃ r', exec (stepSection conf) r (s.sections a) = some r' ∧
        Represents conf s' r' ∧
        trace (stepSection conf) (observe conf) r (s.sections a) = observeThread conf s a :=
    ⟨r, by rw [none]; rfl, rep, by rw [none, quiet]; rfl⟩
  have one {x : Section} {r' : Regulator} (this : s.sections a = [x])
      (hstep : stepSection conf r x = some r') (rep : Represents conf s' r')
      (seen : observe conf r x = observeThread conf s a) :
      ∃ r', exec (stepSection conf) r (s.sections a) = some r' ∧ Represents conf s' r' ∧
        trace (stepSection conf) (observe conf) r (s.sections a) = observeThread conf s a := by
    refine ⟨r', by simp [this, exec, hstep], rep, ?_⟩
    simp [this, trace, hstep, seen]
  cases h with
  | @call c op pc =>
    refine silent rfl rfl (rep.setCaller ?_)
    rw [next_caller, pending_updates, pc]
    rfl
  | @lock c op u rest pc =>
    exact silent (by simp [Threads.sections, pc]) (by simp [observeThread, pc])
      ((rep.stutter rfl (fun _ => rfl) rfl : Represents conf (s.setMutex _ _) r).setCaller
        (by rw [setMutex_callers, pc]; rfl))
  | @acquire c op u rest m pc hm =>
    exact silent (by simp [Threads.sections, pc]) (by simp [observeThread, pc])
      ((rep.stutter rfl (fun _ => rfl) rfl : Represents conf (s.setMutex _ _) r).setCaller
        (by rw [setMutex_callers, pc]; rfl))
  | @assign c op u rest pc =>
    have known := proper c
    rw [pc] at known
    obtain ⟨r', hstep, rep', seen⟩ := rep.assign pc (assigning known)
    exact one (by simp [Threads.sections, pc]) hstep rep' seen
  | @unlock c op u rest pc =>
    exact silent (by simp [Threads.sections, pc]) (by simp [observeThread, pc])
      ((rep.stutter rfl (fun _ => rfl) rfl : Represents conf (s.setMutex _ _) r).setCaller
        (by rw [setMutex_callers, pc, next_caller]; rfl))
  | @keys order pc all =>
    have at_ : r.passes 0 = .idle := by
      rw [rep.pass, pc]
      rfl
    have all' : r.server.inRateMap.Iterates order := rep.server ▸ all
    exact one rfl (if_pos ⟨at_, all'⟩) (rep.setDaemon rfl) rfl
  | @moves pc' h =>
    generalize pc : s.daemon = before at h
    cases h with
    | wake =>
      exact silent (by simp [Threads.sections, pc]) (by simp [observeThread, pc])
        (rep.stutter rfl (fun _ => rfl) (by rw [pc]; rfl))
    | finish =>
      have at_ : r.passes 0 = .lookup [] := by
        rw [rep.pass, pc]
        rfl
      exact one (x := .finish 0) (by simp [Threads.sections, pc]) (if_pos at_) (rep.setDaemon rfl)
        (by simp [observe, observeThread, pc])
    | altered job inRate outRate jobs =>
      have at_ : r.passes 0 = .alterNodes job outRate inRate jobs := by
        rw [rep.pass, pc]
        rfl
      refine one (x := .alterNodes 0) (by simp [Threads.sections, pc]) ?_ (rep.setDaemon rfl)
        (by simp [observe, observeThread, pc, at_])
      simp only [stepSection, at_]
      rfl
  | @locks pc' m h hm =>
    have quiet : s.sections .daemon = [] ∧ observeThread conf s .daemon = [] ∧
        pc'.pass conf = s.daemon.pass conf := by
      generalize pc : s.daemon = before at h
      cases h <;> simp [Threads.sections, observeThread, pc, DaemonPC.pass]
    exact silent quiet.1 quiet.2.1 (rep.stutter rfl (fun _ => rfl) quiet.2.2)
  | @unlocks pc' h =>
    have quiet : s.sections .daemon = [] ∧ observeThread conf s .daemon = [] ∧
        pc'.pass conf = s.daemon.pass conf := by
      generalize pc : s.daemon = before at h
      cases h <;> simp [Threads.sections, observeThread, DaemonPC.pass, *]
    exact silent quiet.1 quiet.2.1 (rep.stutter rfl (fun _ => rfl) quiet.2.2)
  | @readIn job jobs pc =>
    have known : job.toUInt16 ∈ s.server.inRateMap := by
      apply scanned.known
      rw [pc]
      exact List.mem_cons_self
    refine silent (by simp [Threads.sections, pc]) (by simp [observeThread, pc])
      (rep.stutter ?_ (fun _ => rfl) (by rw [pc]; rfl))
    show Server.mk (s.server.inRateMap.subscript job.toUInt16).2 s.server.outRateMap = s.server
    rw [subscript_of_mem known]
  | @readOut job inRate jobs pc =>
    obtain ⟨r', hstep, rep'⟩ := rep.lookup scanned pc
    exact one (by simp [Threads.sections, pc]) hstep rep' (by simp [observe, observeThread, pc])

/-- The threads do what the locked sections do.  For every run of the threads there is a run of
sections with the same registrations, finalisations and requests, in the same order, that ends with the
same maps. -/
theorem threads_refine_sections (hrun : runThreads conf yields acts = some s) :
    ∃ sections r, runSections conf sections = some r ∧ r.server = s.server ∧
      events conf sections = trace (stepThread conf yields) (observeThread conf) .init acts := by
  suffices h : ∃ r, runSections conf (trace (stepThread conf yields) Threads.sections .init acts) =
      some r ∧ Represents conf s r ∧
      events conf (trace (stepThread conf yields) Threads.sections .init acts) =
        trace (stepThread conf yields) (observeThread conf) .init acts by
    obtain ⟨r, hr, rep, seen⟩ := h
    exact ⟨_, r, hr, rep.server, seen⟩
  refine thread_invariant (fun acts s => ∃ r,
    runSections conf (trace (stepThread conf yields) Threads.sections .init acts) = some r ∧
      Represents conf s r ∧
      events conf (trace (stepThread conf yields) Threads.sections .init acts) =
        trace (stepThread conf yields) (observeThread conf) .init acts)
    ⟨.init, rfl, ⟨rfl, fun _ => rfl, rfl⟩, rfl⟩ ?_ hrun
  rintro acts a s s' hrun ⟨r, hr, rep, seen⟩ hstep h
  obtain ⟨r', hr', rep', seen'⟩ := rep.next (scanned hrun) (proper hrun) h
  rw [trace_snoc _ Threads.sections hrun hstep, trace_snoc _ (observeThread conf) hrun hstep]
  refine ⟨r', (exec_append_eq_some _).2 ⟨r, hr, hr'⟩, rep', ?_⟩
  rw [events, trace_append _ (observe conf) _ hr, seen']
  exact congrArg (· ++ _) seen

/-- A registration, and a pass that looks up the job while a call sets its output rate. -/
theorem threads_refine_sections_two :
    let acts : List ThreadAction := List.flatten
      [.call 0 (.registerJob 1) :: List.replicate 8 (.caller 0),
        .call 0 (.setInRate 1 2000) :: List.replicate 4 (.caller 0),
        [.daemon, .daemon, .keys [1], .daemon, .daemon, .daemon, .daemon],
        .call 0 (.setOutRate 1 5) :: List.replicate 3 (.caller 0), List.replicate 4 .daemon]
    ∃ s, runThreads {} false acts = some s ∧
      ∃ sections r, runSections {} sections = some r ∧ r.server = s.server ∧
        events {} sections = trace (stepThread {} false) (observeThread {}) .init acts := by
  intro acts
  have hrun := (Option.some_get (x := runThreads {} false acts) (by decide +kernel)).symm
  exact ⟨_, hrun, threads_refine_sections hrun⟩

end Rhea.ByteflowRegulator
