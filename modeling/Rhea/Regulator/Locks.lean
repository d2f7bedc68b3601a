import Rhea.Regulator.Threads

/-!
# The mutexes of the regulator

The mutexes know their holders (`guarded`), and what the daemon has found in `in_rate_map` stays there
(`scanned`).  Hence they keep the writers of each map apart, and the daemon from those of
`in_rate_map`; `out_rate_map` it reads beside them (`race_iff`).
-/

namespace Rhea.ByteflowRegulator

variable {conf : Configuration} {yields : Bool} {s s' : Threads} {a : ThreadAction}
  {acts : List ThreadAction} {c : ℕ} {d : Direction}

/-! ## Who holds the mutexes -/

/-- Whether the thread holds the mutex of a map. -/
def CallerPC.holds (d : Direction) : CallerPC → Bool
  | .assign _ u _ | .unlock _ u _ => u.direction = d
  | _ => false

/-- Whether the thread waits for the mutex of a map. -/
def CallerPC.waits (d : Direction) : CallerPC → Bool
  | .blocked _ u _ => u.direction = d
  | _ => false

/-- How many shared locks of `in_mutex` the daemon holds. -/
def DaemonPC.holds : DaemonPC → ℕ
  | .keysRead | .keysUnlock _ | .outLock _ _ | .inUnlock _ _ _ _ => 1
  | .readIn _ _ | .readOut _ _ _ | .outUnlock _ _ _ _ => 2
  | _ => 0

/-- The mutexes know their holders. -/
structure Guarded (s : Threads) : Prop where
  owner : ∀ d c, (s.mutex d).owner = some c ↔ (s.callers c).holds d = true
  waiting : ∀ d c, (s.mutex d).waiting.count c = if (s.callers c).waits d then 1 else 0
  shared : (s.mutex .inRate).holds = s.daemon.holds
  unshared : (s.mutex .outRate).holds = 0
  exclusive : ∀ d, (s.mutex d).Exclusive

theorem Guarded.init : Guarded .init where
  owner d c := by simp [Threads.init, SharedMutex.free, CallerPC.holds]
  waiting d c := by simp [Threads.init, SharedMutex.free, CallerPC.waits]
  shared := rfl
  unshared := rfl
  exclusive _ := SharedMutex.exclusive_free

theorem CallerPC.next_holds (op : Operation) (rest : List Update) :
    (CallerPC.next op rest).holds d = false := by
  cases rest <;> rfl

theorem CallerPC.next_waits (op : Operation) (rest : List Update) :
    (CallerPC.next op rest).waits d = false := by
  cases rest <;> rfl

theorem DaemonPC.Locks.holds {pc pc' : DaemonPC} (h : pc.Locks pc') :
    pc'.holds = pc.holds + 1 := by
  cases h <;> rfl

theorem DaemonPC.Unlocks.holds {pc pc' : DaemonPC} (h : pc.Unlocks conf pc') :
    pc'.holds = pc.holds - 1 := by
  cases h <;> rfl

theorem DaemonPC.Moves.holds {pc pc' : DaemonPC} (h : pc.Moves pc') : pc'.holds = pc.holds := by
  cases h <;> rfl

theorem Guarded.setCaller {pc : CallerPC} (inv : Guarded s)
    (holds : ∀ d, pc.holds d = (s.callers c).holds d)
    (waits : ∀ d, pc.waits d = (s.callers c).waits d) : Guarded (s.setCaller c pc) where
  owner d c' := by
    rw [setCaller_mutex, setCaller_callers, inv.owner]
    split_ifs with hc
    · rw [hc, holds]
    · rfl
  waiting d c' := by
    rw [setCaller_mutex, setCaller_callers, inv.waiting]
    by_cases hc : c' = c
    · rw [if_pos hc, hc, waits]
    · rw [if_neg hc]
  shared := inv.shared
  unshared := inv.unshared
  exclusive := inv.exclusive

theorem Guarded.setMutex {pc : CallerPC} {m : SharedMutex ℕ} (inv : Guarded s)
    (owner : ∀ c', m.owner = some c' ↔ (if c' = c then pc else s.callers c').holds d = true)
    (waiting : ∀ c', m.waiting.count c' =
      if (if c' = c then pc else s.callers c').waits d then 1 else 0)
    (others : ∀ d' ≠ d, pc.holds d' = (s.callers c).holds d' ∧ pc.waits d' = (s.callers c).waits d')
    (holds : m.holds = (s.mutex d).holds) (exclusive : m.Exclusive) :
    Guarded ((s.setMutex d m).setCaller c pc) where
  owner d' c' := by
    rw [setCaller_mutex, setMutex_mutex, setCaller_callers, setMutex_callers]
    by_cases hd : d' = d
    · rw [if_pos hd, hd, owner]
    · rw [if_neg hd, inv.owner]
      by_cases hc : c' = c
      · rw [if_pos hc, hc, (others d' hd).1]
      · rw [if_neg hc]
  waiting d' c' := by
    rw [setCaller_mutex, setMutex_mutex, setCaller_callers, setMutex_callers]
    by_cases hd : d' = d
    · rw [if_pos hd, hd, waiting]
    · rw [if_neg hd, inv.waiting]
      by_cases hc : c' = c
      · rw [if_pos hc, hc, (others d' hd).2]
      · rw [if_neg hc]
  shared := by
    rw [setCaller_mutex, setMutex_mutex, setCaller_daemon, setMutex_daemon, ← inv.shared]
    split_ifs with hd
    · rw [holds, hd]
    · rfl
  unshared := by
    rw [setCaller_mutex, setMutex_mutex, ← inv.unshared]
    split_ifs with hd
    · rw [holds, hd]
    · rfl
  exclusive d' := by
    rw [setCaller_mutex, setMutex_mutex]
    split_ifs
    · exact exclusive
    · exact inv.exclusive d'

theorem Guarded.setDaemon {pc : DaemonPC} {m : SharedMutex ℕ} (inv : Guarded s)
    (owner : m.owner = (s.mutex .inRate).owner) (waiting : m.waiting = (s.mutex .inRate).waiting)
    (holds : m.holds = pc.holds) (exclusive : m.Exclusive) :
    Guarded ((s.setMutex .inRate m).setDaemon pc) where
  owner d c := by
    rw [setDaemon_mutex, setMutex_mutex, setDaemon_callers, setMutex_callers, ← inv.owner]
    split_ifs with hd
    · rw [owner, hd]
    · rfl
  waiting d c := by
    rw [setDaemon_mutex, setMutex_mutex, setDaemon_callers, setMutex_callers, ← inv.waiting]
    split_ifs with hd
    · rw [waiting, hd]
    · rfl
  shared := holds
  unshared := inv.unshared
  exclusive d := by
    rw [setDaemon_mutex, setMutex_mutex]
    split_ifs
    · exact exclusive
    · exact inv.exclusive d

theorem Guarded.next (inv : Guarded s) (h : ThreadStep conf yields s a s') : Guarded s' := by
  cases h with
  | @call c op pc =>
    refine inv.setCaller (fun d => ?_) fun d => ?_
    · rw [CallerPC.next_holds, pc]
      rfl
    · rw [CallerPC.next_waits, pc]
      rfl
  | @lock c op u rest pc =>
    refine inv.setMutex (fun c' => ?_) (fun c' => ?_) (fun d' hd => ?_) rfl (inv.exclusive _)
    · show (s.mutex u.direction).owner = some c' ↔ _
      rw [inv.owner]
      split_ifs with hc
      · simp [hc, pc, CallerPC.holds]
      · rfl
    · show (c ::ₘ (s.mutex u.direction).waiting).count c' = _
      rw [Multiset.count_cons, inv.waiting]
      by_cases hc : c' = c
      · simp [hc, pc, CallerPC.waits]
      · simp [hc]
    · simp [pc, CallerPC.holds, CallerPC.waits, Ne.symm hd]
  | @acquire c op u rest m pc hm =>
    have exclusive := SharedMutex.Exclusive.lock hm
    unfold SharedMutex.lock at hm
    split_ifs at hm with free
    obtain rfl := Option.some.inj hm
    refine inv.setMutex (fun c' => ?_) (fun c' => ?_) (fun d' hd => ?_) rfl exclusive
    · show some c = some c' ↔ _
      split_ifs with hc
      · simp [hc, CallerPC.holds]
      · rw [← inv.owner, free.1]
        simp [Ne.symm hc]
    · show ((s.mutex u.direction).waiting.erase c).count c' = _
      by_cases hc : c' = c
      · rw [hc, Multiset.count_erase_self, inv.waiting, pc]
        simp [CallerPC.waits]
      · rw [Multiset.count_erase_of_ne hc, inv.waiting, if_neg hc]
    · simp [pc, CallerPC.holds, CallerPC.waits, Ne.symm hd]
  | @assign c op u rest pc =>
    refine Guarded.setCaller (s := { s with server := _ }) ⟨inv.owner, inv.waiting, inv.shared,
      inv.unshared, inv.exclusive⟩ ?_ ?_
    · intro d
      simp [pc, CallerPC.holds]
    · intro d
      simp [pc, CallerPC.waits]
  | @unlock c op u rest pc =>
    have owned : (s.mutex u.direction).owner = some c :=
      (inv.owner _ _).2 (by simp [pc, CallerPC.holds])
    refine inv.setMutex (fun c' => ?_) (fun c' => ?_) (fun d' hd => ?_) rfl (.unlock _)
    · show none = some c' ↔ _
      split_ifs with hc
      · simp [CallerPC.next_holds]
      · rw [← inv.owner, owned]
        simp [Ne.symm hc]
    · show (s.mutex u.direction).waiting.count c' = _
      rw [inv.waiting]
      by_cases hc : c' = c
      · rw [if_pos hc, hc, CallerPC.next_waits, pc]
        rfl
      · rw [if_neg hc]
    · rw [CallerPC.next_holds, CallerPC.next_waits, pc]
      simp [CallerPC.holds, CallerPC.waits, Ne.symm hd]
  | @keys order pc all =>
    exact ⟨inv.owner, inv.waiting, inv.shared.trans (by rw [pc]; rfl), inv.unshared, inv.exclusive⟩
  | moves h =>
    exact ⟨inv.owner, inv.waiting, inv.shared.trans h.holds.symm, inv.unshared, inv.exclusive⟩
  | locks h hm =>
    have exclusive := SharedMutex.Exclusive.lockShared hm
    unfold SharedMutex.lockShared at hm
    split_ifs at hm with free
    obtain rfl := Option.some.inj hm
    exact inv.setDaemon rfl rfl (by rw [h.holds, ← inv.shared]) exclusive
  | unlocks h =>
    refine inv.setDaemon rfl rfl ?_ (inv.exclusive _).unlockShared
    rw [h.holds, ← inv.shared]
    rfl
  | readIn pc =>
    exact ⟨inv.owner, inv.waiting, inv.shared.trans (by rw [pc]; rfl), inv.unshared, inv.exclusive⟩
  | readOut pc =>
    exact ⟨inv.owner, inv.waiting, inv.shared.trans (by rw [pc]; rfl), inv.unshared, inv.exclusive⟩

/-- The mutexes know their holders after every run. -/
theorem guarded (hrun : runThreads conf yields acts = some s) : Guarded s :=
  thread_invariant (fun _ s => Guarded s) .init (fun _ _ _ _ _ inv _ h => inv.next h) hrun

/-- While the daemon has a shared lock no thread holds `in_mutex`. -/
theorem Guarded.reading (inv : Guarded s) (held : s.daemon.holds ≠ 0) (c : ℕ) :
    (s.callers c).holds .inRate = false := by
  by_contra owned
  have owner := (inv.owner .inRate c).2 (by simpa using owned)
  apply held
  rw [← inv.shared]
  exact inv.exclusive _ (by simp [owner])

theorem Guarded.eq_of_holds (inv : Guarded s) {c' : ℕ} (h : (s.callers c).holds d = true)
    (h' : (s.callers c').holds d = true) : c = c' :=
  Option.some.inj (((inv.owner d c).2 h).symm.trans ((inv.owner d c').2 h'))

/-! ## What the daemon has found -/

/-- The jobs that the daemon has yet to deal with. -/
def DaemonPC.jobs : DaemonPC → List JobId
  | .idle | .keysLock | .keysRead => []
  | .keysUnlock jobs | .inLock jobs => jobs
  | .outLock job jobs | .readIn job jobs | .readOut job _ jobs | .outUnlock job _ _ jobs
  | .inUnlock job _ _ jobs | .alterNodes job _ _ jobs => job :: jobs

/-- What the daemon has found in `in_rate_map` is still there. -/
structure Scanned (s : Threads) : Prop where
  known : ∀ job ∈ s.daemon.jobs, job.toUInt16 ∈ s.server.inRateMap
  read : ∀ job inRate jobs, s.daemon = .readOut job inRate jobs →
    s.server.inRateMap.rate job.toUInt16 = inRate

theorem Server.mem_assign {server : Server} {u : Update} {k : UInt16}
    (h : k ∈ server.inRateMap) : k ∈ (server.assign u).inRateMap := by
  unfold Server.assign
  cases u.direction with
  | inRate => exact Finmap.mem_insert.2 (.inr h)
  | outRate => exact h

theorem Server.assign_outRate {server : Server} {u : Update} (h : u.direction = .outRate) :
    (server.assign u).inRateMap = server.inRateMap := by
  simp [Server.assign, h]

theorem DaemonPC.Locks.jobs {pc pc' : DaemonPC} (h : pc.Locks pc') : pc'.jobs = pc.jobs := by
  cases h <;> rfl

theorem DaemonPC.Unlocks.jobs {pc pc' : DaemonPC} (h : pc.Unlocks conf pc') :
    pc'.jobs ⊆ pc.jobs := by
  cases h <;> simp [DaemonPC.jobs]

theorem DaemonPC.Moves.jobs {pc pc' : DaemonPC} (h : pc.Moves pc') : pc'.jobs ⊆ pc.jobs := by
  cases h <;> simp [DaemonPC.jobs]

theorem DaemonPC.Locks.ne_readOut {pc pc' : DaemonPC} {job : JobId} {inRate : UInt32}
    {jobs : List JobId} (h : pc.Locks pc') : pc' ≠ .readOut job inRate jobs := by
  cases h <;> exact nofun

theorem DaemonPC.Unlocks.ne_readOut {pc pc' : DaemonPC} {job : JobId} {inRate : UInt32}
    {jobs : List JobId} (h : pc.Unlocks conf pc') : pc' ≠ .readOut job inRate jobs := by
  cases h <;> exact nofun

theorem DaemonPC.Moves.ne_readOut {pc pc' : DaemonPC} {job : JobId} {inRate : UInt32}
    {jobs : List JobId} (h : pc.Moves pc') : pc' ≠ .readOut job inRate jobs := by
  cases h <;> exact nofun

theorem Scanned.next (inv : Scanned s) (guarded : Guarded s)
    (h : ThreadStep conf yields s a s') : Scanned s' := by
  cases h with
  | call pc | lock pc | acquire pc hm | unlock pc => exact ⟨inv.known, inv.read⟩
  | @assign c op u rest pc =>
    refine ⟨fun job hj => Server.mem_assign (inv.known job hj), fun job inRate jobs hd => ?_⟩
    have at_ : s.daemon = .readOut job inRate jobs := hd
    have reading := guarded.reading (by rw [at_]; simp [DaemonPC.holds]) c
    have other : u.direction = .outRate := by
      cases hu : u.direction with
      | inRate => simp [pc, CallerPC.holds, hu] at reading
      | outRate => rfl
    show (s.server.assign u).inRateMap.rate job.toUInt16 = inRate
    rw [Server.assign_outRate other]
    exact inv.read job inRate jobs at_
  | @keys order pc all =>
    refine ⟨fun job hj => ?_, by simp⟩
    obtain ⟨k, hk, rfl⟩ := List.mem_map.1 hj
    rw [UInt16.toUInt16_toUInt32]
    exact all.mem_iff.1 hk
  | moves h =>
    refine ⟨fun job hj => inv.known job (h.jobs hj), fun job inRate jobs hd => ?_⟩
    rw [setDaemon_daemon] at hd
    exact (h.ne_readOut hd).elim
  | @locks pc' m h hm =>
    refine ⟨fun job hj => inv.known job (h.jobs ▸ hj), fun job inRate jobs hd => ?_⟩
    exact (h.ne_readOut hd).elim
  | @unlocks pc' h =>
    refine ⟨fun job hj => inv.known job (h.jobs hj), fun job inRate jobs hd => ?_⟩
    exact (h.ne_readOut hd).elim
  | @readIn job jobs pc =>
    have known : job.toUInt16 ∈ s.server.inRateMap := inv.known job (by simp [pc, DaemonPC.jobs])
    refine ⟨fun j hj => ?_, fun j inRate l hd => ?_⟩
    · show j.toUInt16 ∈ (s.server.inRateMap.subscript job.toUInt16).2
      rw [subscript_of_mem known]
      exact inv.known j (by simpa [pc, DaemonPC.jobs] using hj)
    · cases hd
      exact rate_subscript ..
  | @readOut job inRate jobs pc =>
    refine ⟨fun j hj => inv.known j (by simpa [pc, DaemonPC.jobs] using hj), fun j i l hd => ?_⟩
    cases hd

theorem scanned (hrun : runThreads conf yields acts = some s) : Scanned s :=
  thread_invariant (fun _ s => Scanned s) ⟨by simp [Threads.init, DaemonPC.jobs], by simp [Threads.init]⟩
    (fun _ _ _ _ hrun inv _ h => inv.next (guarded hrun) h) hrun

/-! ## Races -/

/-- The threads of the server. -/
inductive Thread
  | caller (c : ℕ)
  | daemon
  deriving DecidableEq

/-- The map that a thread accesses with its next step, and whether the access changes it. -/
def Threads.access (s : Threads) : Thread → Option (Direction × Bool)
  | .caller c =>
    match s.callers c with
    | .assign _ u _ => some (u.direction, true)
    | _ => none
  | .daemon =>
    match s.daemon with
    | .keysRead => some (.inRate, false)
    | .readIn job _ => some (.inRate, job.toUInt16 ∉ s.server.inRateMap)
    | .readOut job _ _ => some (.outRate, job.toUInt16 ∉ s.server.outRateMap)
    | _ => none

/-- Two threads are about to access a map, and one of them changes it. -/
def Threads.Race (s : Threads) (d : Direction) (x y : Thread) : Prop :=
  x ≠ y ∧ ∃ v w, s.access x = some (d, v) ∧ s.access y = some (d, w) ∧ (v = true ∨ w = true)

/-- A thread of the RPC server is about to assign to a map. -/
def CallerPC.Assigns (pc : CallerPC) (d : Direction) : Prop :=
  ∃ op u rest, pc = .assign op u rest ∧ u.direction = d

theorem access_caller {v : Bool} :
    s.access (.caller c) = some (d, v) ↔ (s.callers c).Assigns d ∧ v = true := by
  cases pc : s.callers c with
  | assign op u rest => simp [Threads.access, pc, CallerPC.Assigns, eq_comm]
  | _ => simp [Threads.access, pc, CallerPC.Assigns]

theorem CallerPC.Assigns.holds {pc : CallerPC} (h : pc.Assigns d) : pc.holds d = true := by
  obtain ⟨op, u, rest, rfl, rfl⟩ := h
  simp [CallerPC.holds]

theorem access_daemon {v : Bool} (scanned : Scanned s) (h : s.access .daemon = some (d, v)) :
    (d = .inRate ∧ v = false ∧ s.daemon.holds ≠ 0) ∨
      d = .outRate ∧ ∃ job inRate jobs, s.daemon = .readOut job inRate jobs := by
  unfold Threads.access at h
  cases pc : s.daemon <;> simp only [pc, reduceCtorEq, Option.some.injEq, Prod.mk.injEq] at h
  · exact .inl ⟨h.1.symm, h.2.symm, by simp [DaemonPC.holds]⟩
  · refine .inl ⟨h.1.symm, ?_, by simp [DaemonPC.holds]⟩
    have known := scanned.known _ (by rw [pc]; exact List.mem_cons_self)
    simpa [known] using h.2.symm
  · exact .inr ⟨h.1.symm, _, _, _, rfl⟩

/-- Where the mutexes do not keep threads apart.  `in_rate_map` is never accessed by two threads of
which one changes it, and no two calls access `out_rate_map` together; the daemon reads `out_rate_map`
without `out_mutex`, and so beside a call that assigns to it.  The daemon's `in_rate_map[job]` finds an
entry and inserts none. -/
theorem race_iff (hrun : runThreads conf yields acts = some s) (d : Direction) (x y : Thread) :
    (s.Race d x y ↔ d = .outRate ∧ (∃ job inRate jobs, s.daemon = .readOut job inRate jobs) ∧
      ∃ c, (s.callers c).Assigns .outRate ∧
        (x = .caller c ∧ y = .daemon ∨ x = .daemon ∧ y = .caller c)) ∧
    ∀ job jobs, s.daemon = .readIn job jobs → job.toUInt16 ∈ s.server.inRateMap ∧
      ∀ s', stepThread conf yields s .daemon = some s' →
        s'.server.inRateMap = s.server.inRateMap := by
  have inv := guarded hrun
  have found := scanned hrun
  -- a call and the daemon
  have mixed {c : ℕ} {v w : Bool} (hc : s.access (.caller c) = some (d, v))
      (hd : s.access .daemon = some (d, w)) :
      d = .outRate ∧ (∃ job inRate jobs, s.daemon = .readOut job inRate jobs) ∧
        (s.callers c).Assigns .outRate := by
    have assigns := (access_caller.1 hc).1
    rcases access_daemon found hd with ⟨rfl, -, held⟩ | ⟨rfl, reads⟩
    · have free := inv.reading held c
      rw [assigns.holds] at free
      cases free
    · exact ⟨rfl, reads, assigns⟩
  refine ⟨⟨?_, ?_⟩, ?_⟩
  · rintro ⟨hne, v, w, hx, hy, -⟩
    cases x with
    | caller c =>
      cases y with
      | caller c' =>
        have same := inv.eq_of_holds (access_caller.1 hx).1.holds (access_caller.1 hy).1.holds
        exact absurd (congrArg Thread.caller same) hne
      | daemon =>
        obtain ⟨hd, reads, assigns⟩ := mixed hx hy
        exact ⟨hd, reads, c, assigns, .inl ⟨rfl, rfl⟩⟩
    | daemon =>
      cases y with
      | caller c =>
        obtain ⟨hd, reads, assigns⟩ := mixed hy hx
        exact ⟨hd, reads, c, assigns, .inr ⟨rfl, rfl⟩⟩
      | daemon => exact absurd rfl hne
  · rintro ⟨rfl, ⟨job, inRate, jobs, pc⟩, c, assigns, ends⟩
    have hc : s.access (.caller c) = some (Direction.outRate, true) :=
      access_caller.2 ⟨assigns, rfl⟩
    have hd : s.access .daemon =
        some (Direction.outRate, decide (job.toUInt16 ∉ s.server.outRateMap)) := by
      simp [Threads.access, pc]
    rcases ends with ⟨rfl, rfl⟩ | ⟨rfl, rfl⟩
    · exact ⟨nofun, true, _, hc, hd, .inl rfl⟩
    · exact ⟨nofun, _, true, hd, hc, .inr rfl⟩
  · intro job jobs pc
    have known := found.known job (by rw [pc]; exact List.mem_cons_self)
    refine ⟨known, fun s' hstep => ?_⟩
    simp only [stepThread, pc, daemonStep] at hstep
    rw [← Option.some.inj hstep, subscript_of_mem known]
    rfl

/-- The daemon looks up the output rate of a job while a call sets it; the input rate it has looked up
before without a change to the map. -/
theorem race_iff_two :
    let early : List ThreadAction := .call 0 (.registerJob 1) :: List.replicate 8 (.caller 0) ++
      [.daemon, .daemon, .keys [1], .daemon, .daemon, .daemon]
    let acts := early ++ [.daemon, .call 0 (.setOutRate 1 5), .caller 0, .caller 0]
    (∃ s s', runThreads {} false early = some s ∧ stepThread {} false s .daemon = some s' ∧
      s'.server.inRateMap = s.server.inRateMap) ∧
    ∃ s, runThreads {} false acts = some s ∧ s.Race .outRate .daemon (.caller 0) := by
  intro early acts
  constructor
  · have hrun := (Option.some_get (x := runThreads {} false early) (by decide +kernel)).symm
    have hstep := (Option.some_get (x := stepThread {} false
      ((runThreads {} false early).get (by decide +kernel)) .daemon) (by decide +kernel)).symm
    exact ⟨_, _, hrun, hstep,
      ((race_iff hrun .inRate .daemon .daemon).2 1 [] (by decide +kernel)).2 _ hstep⟩
  · have hrun := (Option.some_get (x := runThreads {} false acts) (by decide +kernel)).symm
    refine ⟨_, hrun, (race_iff hrun _ _ _).1.2 ⟨rfl, ⟨1, 0, [], ?_⟩, 0,
      ⟨.setOutRate 1 5, ⟨.outRate, 1, 5⟩, [], ?_, rfl⟩, .inr ⟨rfl, rfl⟩⟩⟩
    · decide +kernel
    · decide +kernel

end Rhea.ByteflowRegulator
