import Rhea.Regulator.Jobs

/-!
# The locked sections of the regulator

The calls of the server are not atomic: each is a sequence of locked sections, and between the
sections of one call those of others run.  `stepSection` runs one of them; the callers and the passes
are numbered by natural numbers.  `registerJob_sections` to `calculateRate_sections` recover the
atomic calls as uninterrupted runs.  `only_registered_resized` says under which conditions a pass acts
on registered jobs only.
-/

namespace Rhea.ByteflowRegulator

open Transition

/-- The next section of a caller. -/
inductive Caller
  | idle
  | registerOut (jobId : JobId)
  | finalizeOut (jobId : JobId)
  deriving DecidableEq

/-- The next operation of a pass: the lookup for the first of the jobs, or the request for a job and
then the lookups for the rest. -/
inductive Pass
  | idle
  | lookup (jobs : List JobId)
  | alterNodes (job : JobId) (outRate inRate : UInt32) (jobs : List JobId)
  deriving DecidableEq

/-- The server while calls are under way. -/
structure Regulator where
  server : Server
  callers : ℕ → Caller
  passes : ℕ → Pass

/-- The regulator before the first call. -/
def Regulator.init : Regulator := ⟨.init, fun _ => .idle, fun _ => .idle⟩

/-- A locked section of a call, or the request of a pass. -/
inductive Section
  | registerIn (c : ℕ) (jobId : JobId)
  | registerOut (c : ℕ)
  | finalizeIn (c : ℕ) (jobId : JobId)
  | finalizeOut (c : ℕ)
  | setInRate (c : ℕ) (jobId : JobId) (inRate : UInt32)
  | setOutRate (c : ℕ) (jobId : JobId) (outRate : UInt32)
  | snapshot (p : ℕ) (order : List UInt16)
  | lookup (p : ℕ)
  | alterNodes (p : ℕ)
  | finish (p : ℕ)
  deriving DecidableEq, Repr

/-- What can be seen of a run: completed registrations and finalisations, and requests. -/
inductive RegulatorEvent
  | registered (jobId : JobId)
  | finalized (jobId : JobId)
  | sent (request : ResourceAllocation)
  deriving DecidableEq, Repr

variable (conf : Configuration)

/-- The regulator after a section; `none` when it is not the next one of its caller or pass. -/
def stepSection (s : Regulator) : Section → Option Regulator
  | .registerIn c jobId =>
    if s.callers c = .idle then
      some { s with
        server := { s.server with inRateMap := s.server.inRateMap.assign jobId.toUInt16 0 }
        callers := Function.update s.callers c (.registerOut jobId) }
    else none
  | .registerOut c =>
    match s.callers c with
    | .registerOut jobId => some { s with
        server := { s.server with outRateMap := s.server.outRateMap.assign jobId.toUInt16 0 }
        callers := Function.update s.callers c .idle }
    | _ => none
  | .finalizeIn c jobId =>
    if s.callers c = .idle then
      some { s with
        server := { s.server with inRateMap := s.server.inRateMap.assign jobId.toUInt16 0 }
        callers := Function.update s.callers c (.finalizeOut jobId) }
    else none
  | .finalizeOut c =>
    match s.callers c with
    | .finalizeOut jobId => some { s with
        server := { s.server with outRateMap := s.server.outRateMap.assign jobId.toUInt16 0 }
        callers := Function.update s.callers c .idle }
    | _ => none
  | .setInRate c jobId inRate =>
    if s.callers c = .idle then some { s with server := s.server.setInRate jobId inRate } else none
  | .setOutRate c jobId outRate =>
    if s.callers c = .idle then some { s with server := s.server.setOutRate jobId outRate } else none
  | .snapshot p order =>
    if s.passes p = .idle ∧ s.server.inRateMap.Iterates order then
      some { s with
        passes := Function.update s.passes p (.lookup (order.map UInt16.toUInt32)) }
    else none
  | .lookup p =>
    match s.passes p with
    | .lookup (job :: jobs) =>
      let (outRate, inRate, server) := s.server.readRates job
      some { s with
        server := server
        passes := Function.update s.passes p
          (if imbalanced conf outRate inRate then .alterNodes job outRate inRate jobs
            else .lookup jobs) }
    | _ => none
  | .alterNodes p =>
    match s.passes p with
    | .alterNodes _ _ _ jobs => some { s with
        passes := Function.update s.passes p (.lookup jobs) }
    | _ => none
  | .finish p =>
    if s.passes p = .lookup [] then
      some { s with passes := Function.update s.passes p .idle }
    else none

/-- What is seen when a section runs. -/
def observe (s : Regulator) : Section → List RegulatorEvent
  | .registerOut c =>
    match s.callers c with
    | .registerOut jobId => [.registered jobId]
    | _ => []
  | .finalizeOut c =>
    match s.callers c with
    | .finalizeOut jobId => [.finalized jobId]
    | _ => []
  | .alterNodes p =>
    match s.passes p with
    | .alterNodes job outRate inRate _ =>
      [.sent (alterNodes conf job.toUInt16 outRate inRate)]
    | _ => []
  | _ => []

/-- The regulator after a run. -/
abbrev runSections (sections : List Section) : Option Regulator :=
  exec (stepSection conf) .init sections

/-- What is seen of a run. -/
abbrev events (sections : List Section) : List RegulatorEvent :=
  trace (stepSection conf) (observe conf) .init sections

/-- After these events the job is registered: its registration has completed, and no finalisation
since. -/
def Registered (jobId : JobId) (history : List RegulatorEvent) : Prop :=
  ∃ before later, history = before ++ .registered jobId :: later ∧ .finalized jobId ∉ later

variable {conf} {s s' : Regulator} {a : Section} {sections : List Section}
  {history : List RegulatorEvent} {j : JobId} {k : UInt16}

/-! ## Registration -/

theorem registered_snoc {e : RegulatorEvent} :
    Registered j (history ++ [e]) ↔
      e = .registered j ∨ Registered j history ∧ e ≠ .finalized j := by
  constructor
  · rintro ⟨before, later, h, quiet⟩
    rcases List.eq_nil_or_concat later with rfl | ⟨later, e', rfl⟩
    · exact .inl (by simpa using (List.append_inj' h rfl).2)
    · rw [List.concat_eq_append, ← List.cons_append, ← List.append_assoc] at h
      obtain ⟨rfl, he⟩ := List.append_inj' h rfl
      obtain rfl : e = e' := by simpa using he
      simp only [List.concat_eq_append, List.mem_append, List.mem_singleton, not_or] at quiet
      exact .inr ⟨⟨before, later, rfl, quiet.1⟩, fun h => quiet.2 h.symm⟩
  · rintro (rfl | ⟨⟨before, later, rfl, quiet⟩, he⟩)
    · exact ⟨history, [], rfl, List.not_mem_nil⟩
    · exact ⟨before, later ++ [e], by simp, by simp [quiet, he.symm]⟩

/-! ## The steps -/

/-- The server without an input rate of a job. -/
def Server.clearIn (s : Server) (jobId : JobId) : Server :=
  { s with inRateMap := s.inRateMap.assign jobId.toUInt16 0 }

/-- The server without an output rate of a job. -/
def Server.clearOut (s : Server) (jobId : JobId) : Server :=
  { s with outRateMap := s.outRateMap.assign jobId.toUInt16 0 }

/-- What the sections do, and what is seen of them. -/
inductive Moved (conf : Configuration) (s : Regulator) :
    Section → Regulator → List RegulatorEvent → Prop
  | registerIn {c jobId} (idle : s.callers c = .idle) :
    Moved conf s (.registerIn c jobId) { s with
      server := s.server.clearIn jobId
      callers := Function.update s.callers c (.registerOut jobId) } []
  | registerOut {c jobId} (at_ : s.callers c = .registerOut jobId) :
    Moved conf s (.registerOut c) { s with
      server := s.server.clearOut jobId
      callers := Function.update s.callers c .idle } [.registered jobId]
  | finalizeIn {c jobId} (idle : s.callers c = .idle) :
    Moved conf s (.finalizeIn c jobId) { s with
      server := s.server.clearIn jobId
      callers := Function.update s.callers c (.finalizeOut jobId) } []
  | finalizeOut {c jobId} (at_ : s.callers c = .finalizeOut jobId) :
    Moved conf s (.finalizeOut c) { s with
      server := s.server.clearOut jobId
      callers := Function.update s.callers c .idle } [.finalized jobId]
  | setInRate {c jobId inRate} (idle : s.callers c = .idle) :
    Moved conf s (.setInRate c jobId inRate)
      { s with server := s.server.setInRate jobId inRate } []
  | setOutRate {c jobId outRate} (idle : s.callers c = .idle) :
    Moved conf s (.setOutRate c jobId outRate)
      { s with server := s.server.setOutRate jobId outRate } []
  | snapshot {p order} (idle : s.passes p = .idle) (all : s.server.inRateMap.Iterates order) :
    Moved conf s (.snapshot p order) { s with
      passes := Function.update s.passes p (.lookup (order.map UInt16.toUInt32)) } []
  | act {p job jobs} (at_ : s.passes p = .lookup (job :: jobs))
      (far : imbalanced conf (s.server.rates job.toUInt16).outRate
        (s.server.rates job.toUInt16).inRate = true) :
    Moved conf s (.lookup p) { s with
      server := s.server.visited job.toUInt16
      passes := Function.update s.passes p (.alterNodes job
        (s.server.rates job.toUInt16).outRate (s.server.rates job.toUInt16).inRate jobs) } []
  | skip {p job jobs} (at_ : s.passes p = .lookup (job :: jobs))
      (near : imbalanced conf (s.server.rates job.toUInt16).outRate
        (s.server.rates job.toUInt16).inRate = false) :
    Moved conf s (.lookup p) { s with
      server := s.server.visited job.toUInt16
      passes := Function.update s.passes p (.lookup jobs) } []
  | alterNodes {p job outRate inRate jobs}
      (at_ : s.passes p = .alterNodes job outRate inRate jobs) :
    Moved conf s (.alterNodes p) { s with
      passes := Function.update s.passes p (.lookup jobs) }
      [.sent (alterNodes conf job.toUInt16 outRate inRate)]
  | finish {p} (done : s.passes p = .lookup []) :
    Moved conf s (.finish p) { s with passes := Function.update s.passes p .idle } []

theorem readRates_rates (s : Server) (job : JobId) :
    s.readRates job = ((s.rates job.toUInt16).outRate, (s.rates job.toUInt16).inRate,
      s.visited job.toUInt16) := by
  simp only [Server.readRates, subscript_fst, Server.visited, Server.rates]

theorem moved_of_step (h : stepSection conf s a = some s') :
    Moved conf s a s' (observe conf s a) := by
  cases a with
  | registerIn c jobId | finalizeIn c jobId | setInRate c jobId rate | setOutRate c jobId rate =>
    simp only [stepSection] at h
    split_ifs at h with idle
    obtain rfl := Option.some.inj h
    first
      | exact .registerIn idle
      | exact .finalizeIn idle
      | exact .setInRate idle
      | exact .setOutRate idle
  | registerOut c =>
    cases at_ : s.callers c <;> simp only [stepSection, at_, reduceCtorEq] at h
    obtain rfl := Option.some.inj h
    simp only [observe, at_]
    exact .registerOut at_
  | finalizeOut c =>
    cases at_ : s.callers c <;> simp only [stepSection, at_, reduceCtorEq] at h
    obtain rfl := Option.some.inj h
    simp only [observe, at_]
    exact .finalizeOut at_
  | snapshot p order =>
    simp only [stepSection] at h
    split_ifs at h with idle
    obtain rfl := Option.some.inj h
    exact .snapshot idle.1 idle.2
  | lookup p =>
    simp only [stepSection] at h
    split at h
    · rename_i job jobs at_
      simp only [readRates_rates] at h
      obtain rfl := Option.some.inj h
      cases far : imbalanced conf (s.server.rates job.toUInt16).outRate
          (s.server.rates job.toUInt16).inRate with
      | true => exact .act at_ far
      | false => exact .skip at_ far
    · cases h
  | alterNodes p =>
    cases at_ : s.passes p <;> simp only [stepSection, at_, reduceCtorEq] at h
    obtain rfl := Option.some.inj h
    simp only [observe, at_]
    exact .alterNodes at_
  | finish p =>
    simp only [stepSection] at h
    split_ifs at h with done
    obtain rfl := Option.some.inj h
    exact .finish done

/-! ## Only registered jobs are resized -/

/-- The section keeps clear of what goes wrong: its job id has 16 bits, no rate is reported that
leaves a job that is not registered with rates on which a pass acts, and no finalisation completes
while a pass is about to act on the job. -/
def Careful (conf : Configuration) (history : List RegulatorEvent) (s : Regulator) :
    Section → Prop
  | .registerIn _ jobId | .finalizeIn _ jobId => jobId.toNat < 2 ^ 16
  | .setInRate _ jobId inRate => jobId.toNat < 2 ^ 16 ∧ (Registered jobId history ∨
      imbalanced conf (s.server.rates jobId.toUInt16).outRate inRate = false)
  | .setOutRate _ jobId outRate => jobId.toNat < 2 ^ 16 ∧ (Registered jobId history ∨
      imbalanced conf outRate (s.server.rates jobId.toUInt16).inRate = false)
  | .finalizeOut c => ∀ jobId p outRate inRate jobs, s.callers c = .finalizeOut jobId →
      s.passes p ≠ .alterNodes jobId outRate inRate jobs
  | _ => True

/-- All sections of the run are careful. -/
def CarefulRun (conf : Configuration) (sections : List Section) : Prop :=
  ∀ pre a post m, sections = pre ++ a :: post → runSections conf pre = some m →
    Careful conf (events conf pre) m a

/-- A job with 16 bits. -/
def Caller.Short : Caller → Prop
  | .idle => True
  | .registerOut jobId | .finalizeOut jobId => jobId.toNat < 2 ^ 16

/-- All jobs of the pass have 16 bits. -/
def Pass.Short : Pass → Prop
  | .idle => True
  | .lookup jobs => ∀ job ∈ jobs, job.toNat < 2 ^ 16
  | .alterNodes job _ _ jobs => ∀ job' ∈ job :: jobs, job'.toNat < 2 ^ 16

/-- The invariant of careful runs. -/
structure Sound (conf : Configuration) (history : List RegulatorEvent) (s : Regulator) : Prop where
  callers : ∀ c, (s.callers c).Short
  passes : ∀ p, (s.passes p).Short
  rates : ∀ k : UInt16, Registered k.toUInt32 history ∨
    imbalanced conf (s.server.rates k).outRate (s.server.rates k).inRate = false
  acting : ∀ p job outRate inRate jobs, s.passes p = .alterNodes job outRate inRate jobs →
    Registered job history

theorem toUInt32_toUInt16 (h : j.toNat < 2 ^ 16) : j.toUInt16.toUInt32 = j := by
  apply UInt32.toNat_inj.1
  rw [UInt16.toNat_toUInt32, UInt32.toNat_toUInt16, Nat.mod_eq_of_lt h]

theorem imbalanced_zero_in (conf : Configuration) (outRate : UInt32) :
    imbalanced conf outRate 0 = false := by
  simp [imbalanced]

theorem imbalanced_zero_out (conf : Configuration) (inRate : UInt32) :
    imbalanced conf 0 inRate = false := by
  simp [imbalanced]

theorem rates_clearIn (s : Server) (jobId : JobId) (k : UInt16) :
    (s.clearIn jobId).rates k =
      if k = jobId.toUInt16 then ⟨0, (s.rates k).outRate⟩ else s.rates k := by
  simp only [Server.rates, Server.clearIn, rate_assign]
  split_ifs <;> rfl

theorem rates_clearOut (s : Server) (jobId : JobId) (k : UInt16) :
    (s.clearOut jobId).rates k =
      if k = jobId.toUInt16 then ⟨(s.rates k).inRate, 0⟩ else s.rates k := by
  simp only [Server.rates, Server.clearOut, rate_assign]
  split_ifs <;> rfl

theorem rates_setInRate (s : Server) (jobId : JobId) (inRate : UInt32) (k : UInt16) :
    (s.setInRate jobId inRate).rates k =
      if k = jobId.toUInt16 then ⟨inRate, (s.rates k).outRate⟩ else s.rates k := by
  simp only [Server.rates, Server.setInRate, rate_assign]
  split_ifs <;> rfl

theorem rates_setOutRate (s : Server) (jobId : JobId) (outRate : UInt32) (k : UInt16) :
    (s.setOutRate jobId outRate).rates k =
      if k = jobId.toUInt16 then ⟨(s.rates k).inRate, outRate⟩ else s.rates k := by
  simp only [Server.rates, Server.setOutRate, rate_assign]
  split_ifs <;> rfl

theorem Sound.init (conf : Configuration) : Sound conf [] .init where
  callers _ := trivial
  passes _ := trivial
  rates k := .inr (by rw [Regulator.init, rates_init]; exact imbalanced_zero_in conf 0)
  acting p job outRate inRate jobs h := by cases h

variable {es : List RegulatorEvent}

theorem Registered.mono (h : Registered j history) (quiet : .finalized j ∉ es) :
    Registered j (history ++ es) := by
  obtain ⟨before, later, rfl, hlater⟩ := h
  exact ⟨before, later ++ es, by simp, by simp [hlater, quiet]⟩

theorem Sound.callers_next (inv : Sound conf history s) (careful : Careful conf history s a)
    (moved : Moved conf s a s' es) (c : ℕ) : (s'.callers c).Short := by
  have old := inv.callers c
  cases moved with
  | setInRate | setOutRate | snapshot | act | skip | alterNodes | finish => exact old
  | registerIn | finalizeIn | registerOut | finalizeOut =>
    simp only [Function.update_apply]
    split_ifs
    · first
        | exact careful
        | trivial
    · exact old

theorem Sound.passes_next (inv : Sound conf history s) (moved : Moved conf s a s' es) (p : ℕ) :
    (s'.passes p).Short := by
  have old := inv.passes p
  cases moved with
  | setInRate | setOutRate | registerIn | finalizeIn | registerOut | finalizeOut => exact old
  | snapshot =>
    simp only [Function.update_apply]
    split_ifs
    · intro job hjob
      obtain ⟨k, -, rfl⟩ := List.mem_map.1 hjob
      rw [UInt16.toNat_toUInt32]
      exact k.toNat_lt
    · exact old
  | finish =>
    simp only [Function.update_apply]
    split_ifs
    · trivial
    · exact old
  | act at_ =>
    simp only [Function.update_apply]
    split_ifs with hp
    · rw [hp, at_] at old
      exact old
    · exact old
  | skip at_ | alterNodes at_ =>
    simp only [Function.update_apply]
    split_ifs with hp
    · rw [hp, at_] at old
      exact fun job hjob => old job (List.mem_cons_of_mem _ hjob)
    · exact old

theorem Sound.rates_next (inv : Sound conf history s) (careful : Careful conf history s a)
    (moved : Moved conf s a s' es) (k : UInt16) : Registered k.toUInt32 (history ++ es) ∨
      imbalanced conf (s'.server.rates k).outRate (s'.server.rates k).inRate = false := by
  have old := inv.rates k
  cases moved with
  | registerIn | finalizeIn =>
    rw [List.append_nil, rates_clearIn]
    split_ifs
    · exact .inr (imbalanced_zero_in ..)
    · exact old
  | registerOut =>
    rw [rates_clearOut]
    split_ifs
    · exact .inr (imbalanced_zero_out ..)
    · exact old.imp_left fun h => h.mono (by simp)
  | finalizeOut =>
    rw [rates_clearOut]
    split_ifs with hk
    · exact .inr (imbalanced_zero_out ..)
    · refine old.imp_left fun h => h.mono ?_
      simp only [List.mem_singleton, RegulatorEvent.finalized.injEq]
      rintro rfl
      exact hk (UInt16.toUInt16_toUInt32 _).symm
  | setInRate =>
    rw [List.append_nil, rates_setInRate]
    split_ifs with hk
    · rw [hk, toUInt32_toUInt16 careful.1]
      exact careful.2
    · exact old
  | setOutRate =>
    rw [List.append_nil, rates_setOutRate]
    split_ifs with hk
    · rw [hk, toUInt32_toUInt16 careful.1]
      exact careful.2
    · exact old
  | act | skip =>
    rw [List.append_nil, rates_visited]
    exact old
  | snapshot | finish =>
    rw [List.append_nil]
    exact old
  | alterNodes => exact old.imp_left fun h => h.mono (by simp)

theorem Sound.acting_next (inv : Sound conf history s) (careful : Careful conf history s a)
    (moved : Moved conf s a s' es) {p : ℕ} {job : JobId} {outRate inRate : UInt32}
    {jobs : List JobId} (h : s'.passes p = .alterNodes job outRate inRate jobs) :
    Registered job (history ++ es) := by
  cases moved with
  | registerIn | finalizeIn | setInRate | setOutRate =>
    rw [List.append_nil]
    exact inv.acting p _ _ _ _ h
  | registerOut => exact (inv.acting p _ _ _ _ h).mono (by simp)
  | finalizeOut at_ =>
    refine (inv.acting p _ _ _ _ h).mono ?_
    simp only [List.mem_singleton, RegulatorEvent.finalized.injEq]
    rintro rfl
    exact careful _ p _ _ _ at_ h
  | snapshot | finish | skip =>
    rw [List.append_nil]
    simp only [Function.update_apply] at h
    split_ifs at h with hp
    exact inv.acting p _ _ _ _ h
  | alterNodes =>
    simp only [Function.update_apply] at h
    split_ifs at h with hp
    exact (inv.acting p _ _ _ _ h).mono (by simp)
  | act at_ far =>
    rw [List.append_nil]
    simp only [Function.update_apply] at h
    split_ifs at h with hp
    · -- the pass is about to act on a job whose rates it has just read
      have short := inv.passes p
      rw [hp, at_] at short
      obtain ⟨rfl, -, -, -⟩ := Pass.alterNodes.inj h
      rcases inv.rates (UInt32.toUInt16 _) with hjob | near
      · rwa [toUInt32_toUInt16 (short _ (List.mem_cons_self ..))] at hjob
      · exact absurd (far.symm.trans near) Bool.true_eq_false.mp
    · exact inv.acting p _ _ _ _ h

/-- A careful section keeps the invariant. -/
theorem Sound.next (inv : Sound conf history s) (careful : Careful conf history s a)
    (moved : Moved conf s a s' es) : Sound conf (history ++ es) s' where
  callers := inv.callers_next careful moved
  passes := inv.passes_next moved
  rates := inv.rates_next careful moved
  acting _ _ _ _ _ h := inv.acting_next careful moved h

theorem CarefulRun.pre {pre post : List Section} (careful : CarefulRun conf (pre ++ post)) :
    CarefulRun conf pre := by
  intro pre' a post' m split hm
  exact careful pre' a (post' ++ post) m (by simp [split]) hm

theorem sound_of_run (careful : CarefulRun conf sections)
    (h : runSections conf sections = some s) : Sound conf (events conf sections) s := by
  have prefixClosed : ∀ as a, CarefulRun conf (as ++ [a]) → CarefulRun conf as :=
    fun _ _ careful => careful.pre
  have next : ∀ as a s s', runSections conf as = some s → CarefulRun conf (as ++ [a]) →
      Sound conf (events conf as) s → stepSection conf s a = some s' →
        Sound conf (events conf (as ++ [a])) s' := by
    intro as a s s' hs careful inv ha
    rw [events, trace_snoc _ _ hs ha]
    exact inv.next (careful as a [] s rfl hs) (moved_of_step ha)
  exact exec_invariant (stepSection conf) prefixClosed (Sound.init conf) next h careful

/-- In a careful run every request is for a job that is registered when it is sent. -/
theorem only_registered_resized (careful : CarefulRun conf sections)
    (h : runSections conf sections = some s) {before later : List RegulatorEvent}
    {r : ResourceAllocation} (hr : events conf sections = before ++ .sent r :: later) :
    Registered r.jobId.toUInt32 before := by
  obtain ⟨pre, a, post, m, m', front, back, rfl, hm, ha, seen, rfl⟩ :=
    trace_split (stepSection conf) h hr
  have inv := sound_of_run careful.pre hm
  have moved := moved_of_step ha
  rw [seen] at moved
  generalize hes : front ++ .sent r :: back = es at moved
  cases moved with
  | registerIn | finalizeIn | setInRate | setOutRate | snapshot | act | skip | finish =>
    simp at hes
  | registerOut | finalizeOut =>
    rcases List.append_eq_singleton_iff.1 hes with ⟨-, h⟩ | ⟨-, h⟩ <;> simp at h
  | @alterNodes p job outRate inRate jobs at_ =>
    have short := inv.passes p
    rw [at_] at short
    obtain ⟨rfl, h⟩ | ⟨-, h⟩ := List.append_eq_singleton_iff.1 hes
    · obtain ⟨rfl, -⟩ : alterNodes conf job.toUInt16 outRate inRate = r ∧ back = [] := by
        simpa [eq_comm] using h
      rw [List.append_nil]
      show Registered job.toUInt16.toUInt32 _
      rw [toUInt32_toUInt16 (short job (List.mem_cons_self ..))]
      exact inv.acting p _ _ _ _ at_
    · simp at h

theorem CarefulRun.snoc (careful : CarefulRun conf sections)
    (next : ∀ m, runSections conf sections = some m → Careful conf (events conf sections) m a) :
    CarefulRun conf (sections ++ [a]) := by
  intro pre b post m split hm
  rcases split_append split with ⟨l, rfl, -⟩ | ⟨l, rfl, hl⟩
  · exact careful pre b l m rfl hm
  · obtain ⟨rfl, hb⟩ | ⟨-, hb⟩ := List.append_eq_singleton_iff.1 hl.symm
    · obtain ⟨rfl, -⟩ := List.cons.inj hb
      rw [List.append_nil] at hm ⊢
      exact next m hm
    · simp at hb

/-- A job that is registered, reports its rates and is asked to grow. -/
theorem only_registered_resized_single :
    let sections : List Section := [.registerIn 0 0, .registerOut 0, .setInRate 0 0 2000,
      .setOutRate 0 0 1000, .snapshot 0 [0], .lookup 0, .alterNodes 0]
    events {} sections = [.registered 0] ++ .sent ⟨0, 190⟩ :: [] ∧ Registered 0 [.registered 0] := by
  intro sections
  have seen : events {} sections = [.registered 0] ++ .sent ⟨0, 190⟩ :: [] := by decide +kernel
  have registered {history : List RegulatorEvent} (h : history = [.registered 0]) :
      Registered 0 history := ⟨[], [], h, List.not_mem_nil⟩
  have careful : CarefulRun {} sections := by
    have start : CarefulRun {} [] := by
      intro pre a post m split
      simp at split
    have short : (0 : JobId).toNat < 2 ^ 16 := by decide
    have one := start.snoc (a := .registerIn 0 0) fun _ _ => short
    have two := one.snoc (a := .registerOut 0) fun _ _ => trivial
    have three := two.snoc (a := .setInRate 0 0 2000) fun _ _ =>
      ⟨short, .inl (registered (by decide +kernel))⟩
    have four := three.snoc (a := .setOutRate 0 0 1000) fun _ _ =>
      ⟨short, .inl (registered (by decide +kernel))⟩
    have five := four.snoc (a := .snapshot 0 [0]) fun _ _ => trivial
    have six := five.snoc (a := .lookup 0) fun _ _ => trivial
    exact six.snoc (a := .alterNodes 0) fun _ _ => trivial
  have hrun := (Option.some_get (x := runSections {} sections) (by decide +kernel)).symm
  exact ⟨seen, only_registered_resized careful hrun seen⟩

/-- A job that reports its rates once more after it has been finalised is asked to grow. -/
theorem not_only_registered_resized :
    let sections : List Section := [.registerIn 0 0, .registerOut 0, .finalizeIn 0 0,
      .finalizeOut 0, .setInRate 0 0 2000, .setOutRate 0 0 1000, .snapshot 0 [0], .lookup 0,
      .alterNodes 0]
    (runSections {} sections).isSome ∧
      events {} sections = [.registered 0, .finalized 0] ++ .sent ⟨0, 190⟩ :: [] ∧
      ¬ Registered 0 [.registered 0, .finalized 0] := by
  refine ⟨by decide +kernel, by decide +kernel, fun h => ?_⟩
  have last := registered_snoc.1 (show Registered 0 ([.registered 0] ++ [.finalized 0]) from h)
  simp at last

/-! ## The atomic calls -/

theorem registerJob_sections (conf : Configuration) {c : ℕ} (idle : s.callers c = .idle)
    (j : JobId) :
    exec (stepSection conf) s [.registerIn c j, .registerOut c] =
        some { s with server := s.server.registerJob j } ∧
      trace (stepSection conf) (observe conf) s [.registerIn c j, .registerOut c] =
        [.registered j] := by
  have back : Function.update s.callers c .idle = s.callers := by
    rw [← idle, Function.update_eq_self]
  simp [exec, trace, stepSection, observe, idle, Server.registerJob, back]

theorem finalizeJob_sections (conf : Configuration) {c : ℕ} (idle : s.callers c = .idle)
    (j : JobId) :
    exec (stepSection conf) s [.finalizeIn c j, .finalizeOut c] =
        some { s with server := s.server.finalizeJob j } ∧
      trace (stepSection conf) (observe conf) s [.finalizeIn c j, .finalizeOut c] =
        [.finalized j] := by
  have back : Function.update s.callers c .idle = s.callers := by
    rw [← idle, Function.update_eq_self]
  simp [exec, trace, stepSection, observe, idle, Server.finalizeJob, back]

theorem lookup_sections (conf : Configuration) {p : ℕ} {order : List UInt16}
    (at_ : s.passes p = .lookup (order.map UInt16.toUInt32)) :
    ∃ sections, exec (stepSection conf) s sections = some { s with
          server := (s.server.calculateRate conf order).1
          passes := Function.update s.passes p (.lookup []) } ∧
      trace (stepSection conf) (observe conf) s sections =
        (s.server.calculateRate conf order).2.map .sent := by
  induction order generalizing s with
  | nil =>
    refine ⟨[], ?_, rfl⟩
    have same : Function.update s.passes p (.lookup []) = s.passes := by
      rw [Function.update_eq_self_iff, at_, List.map_nil]
    simp [exec, same, Server.calculateRate, Server.calculateJobs]
  | cons k order ih =>
    rw [calculateRate_cons, request_toList]
    obtain ⟨sections, hexec, htrace⟩ := @ih { s with
      server := s.server.visited k
      passes := Function.update s.passes p (.lookup (order.map UInt16.toUInt32)) }
      (Function.update_self ..)
    unfold Rates.request
    cases far : imbalanced conf (s.server.rates k).outRate (s.server.rates k).inRate with
    | true =>
      refine ⟨.lookup p :: .alterNodes p :: sections, ?_, ?_⟩
      · simpa [exec, stepSection, at_, readRates_rates, far] using hexec
      · simpa [trace, stepSection, observe, at_, readRates_rates, far] using htrace
    | false =>
      refine ⟨.lookup p :: sections, ?_, ?_⟩
      · simpa [exec, stepSection, at_, readRates_rates, far] using hexec
      · simpa [trace, stepSection, observe, at_, readRates_rates, far] using htrace

/-- A pass, uninterrupted, is the atomic one. -/
theorem calculateRate_sections (conf : Configuration) {p : ℕ} {order : List UInt16}
    (idle : s.passes p = .idle) (horder : s.server.inRateMap.Iterates order) :
    ∃ sections, exec (stepSection conf) s sections =
        some { s with server := (s.server.calculateRate conf order).1 } ∧
      trace (stepSection conf) (observe conf) s sections =
        (s.server.calculateRate conf order).2.map .sent := by
  obtain ⟨sections, hexec, htrace⟩ := @lookup_sections { s with
    passes := Function.update s.passes p (.lookup (order.map UInt16.toUInt32)) } conf p order
    (Function.update_self ..)
  have back : Function.update s.passes p .idle = s.passes := by
    rw [← idle, Function.update_eq_self]
  refine ⟨.snapshot p order :: (sections ++ [.finish p]), ?_, ?_⟩
  · simp only [exec, stepSection, idle, horder, and_self, if_true, Option.bind_some, exec_append,
      hexec]
    simp [back]
  · simp only [trace, stepSection, observe, idle, horder, and_self, if_true, Option.elim_some,
      trace_append _ _ _ hexec, htrace]
    simp

end Rhea.ByteflowRegulator
