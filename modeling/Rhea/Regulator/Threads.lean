import Rhea.Lib.SharedMutex
import Rhea.Regulator.Sections

/-!
# The threads of the regulator

The calls of `Server` arrive on the threads of the RPC server, numbered by natural numbers, and the
daemon runs `CalculateRate` again and again.  Here every operation on `in_mutex`, `out_mutex` and the two
maps is a step of its own.  For each job `CalculateRate` takes the shared lock of `in_mutex` twice: the
lock named `out_lock` is one on `in_mutex` too.  `threadStep_of_step` says what the steps do.
-/

namespace Rhea.ByteflowRegulator

open Transition

/-- A rate map, with its mutex. -/
inductive Direction
  | inRate
  | outRate
  deriving DecidableEq, Repr

/-- An assignment to a rate map under its mutex. -/
structure Update where
  direction : Direction
  jobId : JobId
  rate : UInt32
  deriving DecidableEq, Repr

/-- A call that arrives at the server. -/
inductive Operation
  | registerJob (jobId : JobId)
  | finalizeJob (jobId : JobId)
  | setInRate (jobId : JobId) (inRate : UInt32)
  | setOutRate (jobId : JobId) (outRate : UInt32)
  deriving DecidableEq, Repr

/-- The assignments of a call, in order. -/
def Operation.updates : Operation → List Update
  | .registerJob jobId => [⟨.inRate, jobId, 0⟩, ⟨.outRate, jobId, 0⟩]
  | .finalizeJob jobId => [⟨.inRate, jobId, 0⟩, ⟨.outRate, jobId, 0⟩]
  | .setInRate jobId inRate => [⟨.inRate, jobId, inRate⟩]
  | .setOutRate jobId outRate => [⟨.outRate, jobId, outRate⟩]

/-- The program point of a thread of the RPC server. -/
inductive CallerPC
  | idle
  /-- before `std::unique_lock`; `rest` is left of the call -/
  | lock (op : Operation) (update : Update) (rest : List Update)
  /-- in `std::unique_lock`, until the mutex is free -/
  | blocked (op : Operation) (update : Update) (rest : List Update)
  /-- before the assignment -/
  | assign (op : Operation) (update : Update) (rest : List Update)
  /-- before `unlock` -/
  | unlock (op : Operation) (update : Update) (rest : List Update)
  deriving DecidableEq, Repr

/-- The next assignment of a call, or its return. -/
def CallerPC.next (op : Operation) : List Update → CallerPC
  | [] => .idle
  | update :: rest => .lock op update rest

/-- The program point of the daemon. -/
inductive DaemonPC
  /-- `futureObj.wait_for` -/
  | idle
  /-- `std::shared_lock in_lock(in_mutex)` before the keys are collected -/
  | keysLock
  /-- the loop over `in_rate_map` -/
  | keysRead
  /-- `in_lock.unlock()` after it -/
  | keysUnlock (jobs : List JobId)
  /-- the head of the loop over the jobs, and its `std::shared_lock in_lock(in_mutex)` -/
  | inLock (jobs : List JobId)
  /-- `std::shared_lock out_lock(in_mutex)` -/
  | outLock (job : JobId) (jobs : List JobId)
  /-- `in_rate_map[job]` -/
  | readIn (job : JobId) (jobs : List JobId)
  /-- `out_rate_map[job]` -/
  | readOut (job : JobId) (inRate : UInt32) (jobs : List JobId)
  /-- `out_lock.unlock()` -/
  | outUnlock (job : JobId) (inRate outRate : UInt32) (jobs : List JobId)
  /-- `in_lock.unlock()`, and the tests of the rates -/
  | inUnlock (job : JobId) (inRate outRate : UInt32) (jobs : List JobId)
  /-- `AlterNodes` -/
  | alterNodes (job : JobId) (inRate outRate : UInt32) (jobs : List JobId)
  deriving DecidableEq, Repr

/-- The server and its threads. -/
structure Threads where
  server : Server
  mutex : Direction → SharedMutex ℕ
  callers : ℕ → CallerPC
  daemon : DaemonPC

/-- The server before the first call. -/
def Threads.init : Threads := ⟨.init, fun _ => .free, fun _ => .idle, .idle⟩

/-- The next step of a thread; `keys order` is the daemon's loop over the keys of `in_rate_map`, which
it finds in the order `order`. -/
inductive ThreadAction
  | call (c : ℕ) (op : Operation)
  | caller (c : ℕ)
  | keys (order : List UInt16)
  | daemon
  deriving DecidableEq, Repr

/-- An assignment to a rate map. -/
def Server.assign (s : Server) (u : Update) : Server :=
  match u.direction with
  | .inRate => { s with inRateMap := s.inRateMap.assign u.jobId.toUInt16 u.rate }
  | .outRate => { s with outRateMap := s.outRateMap.assign u.jobId.toUInt16 u.rate }

namespace Threads

/-- The state in which a mutex has changed. -/
def setMutex (s : Threads) (d : Direction) (m : SharedMutex ℕ) : Threads :=
  { s with mutex := Function.update s.mutex d m }

/-- The state in which a thread has moved. -/
def setCaller (s : Threads) (c : ℕ) (pc : CallerPC) : Threads :=
  { s with callers := Function.update s.callers c pc }

/-- The state in which the daemon has moved. -/
def setDaemon (s : Threads) (pc : DaemonPC) : Threads := { s with daemon := pc }

end Threads

/-- One step of thread `c` of the RPC server. -/
def callerStep (s : Threads) (c : ℕ) : CallerPC → Option Threads
  | .idle => none
  | .lock op u rest =>
    some ((s.setMutex u.direction ((s.mutex u.direction).request c)).setCaller c
      (.blocked op u rest))
  | .blocked op u rest =>
    ((s.mutex u.direction).lock c).map fun m =>
      (s.setMutex u.direction m).setCaller c (.assign op u rest)
  | .assign op u rest =>
    some ({ s with server := s.server.assign u }.setCaller c (.unlock op u rest))
  | .unlock op u rest =>
    some ((s.setMutex u.direction (s.mutex u.direction).unlock).setCaller c (.next op rest))

variable (conf : Configuration) (yields : Bool)

/-- A shared lock on `in_mutex` by the daemon. -/
def daemonLock (s : Threads) (pc : DaemonPC) : Option Threads :=
  ((s.mutex .inRate).lockShared yields).map fun m => (s.setMutex .inRate m).setDaemon pc

/-- The end of a shared lock on `in_mutex` by the daemon. -/
def daemonUnlock (s : Threads) (pc : DaemonPC) : Threads :=
  (s.setMutex .inRate (s.mutex .inRate).unlockShared).setDaemon pc

/-- One step of the daemon. -/
def daemonStep (s : Threads) : DaemonPC → Option Threads
  | .idle => some (s.setDaemon .keysLock)
  | .keysLock => daemonLock yields s .keysRead
  | .keysRead => none
  | .keysUnlock jobs => some (daemonUnlock s (.inLock jobs))
  | .inLock [] => some (s.setDaemon .idle)
  | .inLock (job :: jobs) => daemonLock yields s (.outLock job jobs)
  -- the second lock is on the same mutex
  | .outLock job jobs => daemonLock yields s (.readIn job jobs)
  | .readIn job jobs =>
    let (inRate, map) := s.server.inRateMap.subscript job.toUInt16
    some ({ s with server := { s.server with inRateMap := map } }.setDaemon
      (.readOut job inRate jobs))
  | .readOut job inRate jobs =>
    let (outRate, map) := s.server.outRateMap.subscript job.toUInt16
    some ({ s with server := { s.server with outRateMap := map } }.setDaemon
      (.outUnlock job inRate outRate jobs))
  | .outUnlock job inRate outRate jobs => some (daemonUnlock s (.inUnlock job inRate outRate jobs))
  | .inUnlock job inRate outRate jobs =>
    some (daemonUnlock s (if imbalanced conf outRate inRate then
      .alterNodes job inRate outRate jobs else .inLock jobs))
  | .alterNodes _ _ _ jobs => some (s.setDaemon (.inLock jobs))

/-- The state after a step of a thread, `none` when the thread cannot take it. -/
def stepThread (s : Threads) : ThreadAction → Option Threads
  | .call c op =>
    if s.callers c = .idle then some (s.setCaller c (.next op op.updates)) else none
  | .caller c => callerStep s c (s.callers c)
  | .keys order =>
    if s.daemon = .keysRead ∧ s.server.inRateMap.Iterates order then
      some (s.setDaemon (.keysUnlock (order.map UInt16.toUInt32)))
    else none
  | .daemon => daemonStep conf yields s s.daemon

/-- The state after a run. -/
abbrev runThreads (acts : List ThreadAction) : Option Threads :=
  exec (stepThread conf yields) .init acts

variable {conf yields} {s s' : Threads} {a : ThreadAction} {acts : List ThreadAction} {c : ℕ}
  {d : Direction}

section Fields

variable (s : Threads) (m : SharedMutex ℕ) (pc : CallerPC) (pc' : DaemonPC)

@[simp] theorem setMutex_server : (s.setMutex d m).server = s.server := rfl
@[simp] theorem setMutex_callers : (s.setMutex d m).callers = s.callers := rfl
@[simp] theorem setMutex_daemon : (s.setMutex d m).daemon = s.daemon := rfl
@[simp] theorem setCaller_server : (s.setCaller c pc).server = s.server := rfl
@[simp] theorem setCaller_mutex : (s.setCaller c pc).mutex = s.mutex := rfl
@[simp] theorem setCaller_daemon : (s.setCaller c pc).daemon = s.daemon := rfl
@[simp] theorem setDaemon_server : (s.setDaemon pc').server = s.server := rfl
@[simp] theorem setDaemon_mutex : (s.setDaemon pc').mutex = s.mutex := rfl
@[simp] theorem setDaemon_callers : (s.setDaemon pc').callers = s.callers := rfl
@[simp] theorem setDaemon_daemon : (s.setDaemon pc').daemon = pc' := rfl

theorem setMutex_mutex (d' : Direction) :
    (s.setMutex d m).mutex d' = if d' = d then m else s.mutex d' := Function.update_apply ..

theorem setCaller_callers (c' : ℕ) :
    (s.setCaller c pc).callers c' = if c' = c then pc else s.callers c' := Function.update_apply ..

end Fields

/-! ## The steps -/

/-- The steps of the daemon that take a shared lock. -/
inductive DaemonPC.Locks : DaemonPC → DaemonPC → Prop
  | keys : Locks .keysLock .keysRead
  | first (job : JobId) (jobs : List JobId) : Locks (.inLock (job :: jobs)) (.outLock job jobs)
  | second (job : JobId) (jobs : List JobId) : Locks (.outLock job jobs) (.readIn job jobs)

/-- The steps of the daemon that give one back. -/
inductive DaemonPC.Unlocks (conf : Configuration) : DaemonPC → DaemonPC → Prop
  | keys (jobs : List JobId) : Unlocks conf (.keysUnlock jobs) (.inLock jobs)
  | second (job : JobId) (inRate outRate : UInt32) (jobs : List JobId) :
    Unlocks conf (.outUnlock job inRate outRate jobs) (.inUnlock job inRate outRate jobs)
  | act {job : JobId} {inRate outRate : UInt32} {jobs : List JobId}
    (far : imbalanced conf outRate inRate = true) :
    Unlocks conf (.inUnlock job inRate outRate jobs) (.alterNodes job inRate outRate jobs)
  | skip {job : JobId} {inRate outRate : UInt32} {jobs : List JobId}
    (near : imbalanced conf outRate inRate = false) :
    Unlocks conf (.inUnlock job inRate outRate jobs) (.inLock jobs)

/-- The steps of the daemon outside its locks. -/
inductive DaemonPC.Moves : DaemonPC → DaemonPC → Prop
  | wake : Moves .idle .keysLock
  | finish : Moves (.inLock []) .idle
  | altered (job : JobId) (inRate outRate : UInt32) (jobs : List JobId) :
    Moves (.alterNodes job inRate outRate jobs) (.inLock jobs)

/-- What the steps do. -/
inductive ThreadStep (conf : Configuration) (yields : Bool) (s : Threads) :
    ThreadAction → Threads → Prop
  | call {c op} (pc : s.callers c = .idle) :
    ThreadStep conf yields s (.call c op) (s.setCaller c (.next op op.updates))
  | lock {c op u rest} (pc : s.callers c = .lock op u rest) :
    ThreadStep conf yields s (.caller c)
      ((s.setMutex u.direction ((s.mutex u.direction).request c)).setCaller c (.blocked op u rest))
  | acquire {c op u rest m} (pc : s.callers c = .blocked op u rest)
    (hm : (s.mutex u.direction).lock c = some m) :
    ThreadStep conf yields s (.caller c)
      ((s.setMutex u.direction m).setCaller c (.assign op u rest))
  | assign {c op u rest} (pc : s.callers c = .assign op u rest) :
    ThreadStep conf yields s (.caller c)
      ({ s with server := s.server.assign u }.setCaller c (.unlock op u rest))
  | unlock {c op u rest} (pc : s.callers c = .unlock op u rest) :
    ThreadStep conf yields s (.caller c)
      ((s.setMutex u.direction (s.mutex u.direction).unlock).setCaller c (.next op rest))
  | keys {order} (pc : s.daemon = .keysRead) (all : s.server.inRateMap.Iterates order) :
    ThreadStep conf yields s (.keys order) (s.setDaemon (.keysUnlock (order.map UInt16.toUInt32)))
  | moves {pc'} (h : s.daemon.Moves pc') : ThreadStep conf yields s .daemon (s.setDaemon pc')
  | locks {pc' m} (h : s.daemon.Locks pc') (hm : (s.mutex .inRate).lockShared yields = some m) :
    ThreadStep conf yields s .daemon ((s.setMutex .inRate m).setDaemon pc')
  | unlocks {pc'} (h : s.daemon.Unlocks conf pc') :
    ThreadStep conf yields s .daemon (daemonUnlock s pc')
  | readIn {job jobs} (pc : s.daemon = .readIn job jobs) :
    ThreadStep conf yields s .daemon
      ({ s with server := ⟨(s.server.inRateMap.subscript job.toUInt16).2, s.server.outRateMap⟩
        }.setDaemon (.readOut job (s.server.inRateMap.rate job.toUInt16) jobs))
  | readOut {job inRate jobs} (pc : s.daemon = .readOut job inRate jobs) :
    ThreadStep conf yields s .daemon
      ({ s with server := ⟨s.server.inRateMap, (s.server.outRateMap.subscript job.toUInt16).2⟩
        }.setDaemon
          (.outUnlock job inRate (s.server.outRateMap.rate job.toUInt16) jobs))

theorem threadStep_of_step (h : stepThread conf yields s a = some s') :
    ThreadStep conf yields s a s' := by
  cases a with
  | call c op =>
    simp only [stepThread, Option.ite_none_right_eq_some] at h
    obtain ⟨pc, hs⟩ := h
    exact Option.some.inj hs ▸ .call pc
  | caller c =>
    cases pc : s.callers c <;> simp only [stepThread, pc, callerStep, reduceCtorEq] at h
    · exact Option.some.inj h ▸ .lock pc
    · obtain ⟨m, hm, rfl⟩ := Option.map_eq_some_iff.1 h
      exact .acquire pc hm
    · exact Option.some.inj h ▸ .assign pc
    · exact Option.some.inj h ▸ .unlock pc
  | keys order =>
    simp only [stepThread, Option.ite_none_right_eq_some] at h
    obtain ⟨⟨pc, all⟩, hs⟩ := h
    exact Option.some.inj hs ▸ .keys pc all
  | daemon =>
    have locks {pc'} (hl : s.daemon.Locks pc') (hs : daemonLock yields s pc' = some s') :
        ThreadStep conf yields s .daemon s' := by
      obtain ⟨m, hm, rfl⟩ := Option.map_eq_some_iff.1 hs
      exact .locks hl hm
    cases pc : s.daemon with
    | idle =>
      simp only [stepThread, pc, daemonStep] at h
      exact Option.some.inj h ▸ .moves (pc ▸ .wake)
    | keysLock =>
      simp only [stepThread, pc, daemonStep] at h
      exact locks (pc ▸ .keys) h
    | keysRead => simp [stepThread, pc, daemonStep] at h
    | keysUnlock jobs =>
      simp only [stepThread, pc, daemonStep] at h
      exact Option.some.inj h ▸ .unlocks (pc ▸ .keys jobs)
    | inLock jobs =>
      cases jobs with
      | nil =>
        simp only [stepThread, pc, daemonStep] at h
        exact Option.some.inj h ▸ .moves (pc ▸ .finish)
      | cons job jobs =>
        simp only [stepThread, pc, daemonStep] at h
        exact locks (pc ▸ .first job jobs) h
    | outLock job jobs =>
      simp only [stepThread, pc, daemonStep] at h
      exact locks (pc ▸ .second job jobs) h
    | readIn job jobs =>
      simp only [stepThread, pc, daemonStep, subscript_fst] at h
      exact Option.some.inj h ▸ .readIn pc
    | readOut job inRate jobs =>
      simp only [stepThread, pc, daemonStep, subscript_fst] at h
      exact Option.some.inj h ▸ .readOut pc
    | outUnlock job inRate outRate jobs =>
      simp only [stepThread, pc, daemonStep] at h
      exact Option.some.inj h ▸ .unlocks (pc ▸ .second job inRate outRate jobs)
    | inUnlock job inRate outRate jobs =>
      simp only [stepThread, pc, daemonStep] at h
      split_ifs at h with far
      · exact Option.some.inj h ▸ .unlocks (pc ▸ .act far)
      · exact Option.some.inj h ▸ .unlocks (pc ▸ .skip (by simpa using far))
    | alterNodes job inRate outRate jobs =>
      simp only [stepThread, pc, daemonStep] at h
      exact Option.some.inj h ▸ .moves (pc ▸ .altered job inRate outRate jobs)

/-- The induction over runs. -/
theorem thread_invariant (I : List ThreadAction → Threads → Prop) (init : I [] .init)
    (next : ∀ acts a s s', runThreads conf yields acts = some s → I acts s →
      stepThread conf yields s a = some s' → ThreadStep conf yields s a s' → I (acts ++ [a]) s')
    (hrun : runThreads conf yields acts = some s) : I acts s :=
  @exec_invariant _ _ (stepThread conf yields) .init (fun _ => True) I (fun _ _ => id) init
    (fun acts a s s' hrun _ inv hstep =>
      next acts a s s' hrun inv hstep (threadStep_of_step hstep)) acts s hrun trivial

end Rhea.ByteflowRegulator
