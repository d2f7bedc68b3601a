import Rhea.Lib.Runs

/-!
# Objects whose operations take effect later

A caller submits an operation under a ticket; at some later moment the operation takes effect on the
object, once; after that callers may be shown its answer.  `Object.step` is the transition function of
this specification.  `Linearization` says that a history of such events is explained by the operations
applied one after the other, in an order that respects the order of the history; every run of the
specification has one, its log (`linearization`).
-/

namespace Deferred

open Transition

/-- An object with operations `ω`: what an operation does to a state and what it answers, and which
answers a caller who is shown something may have got. -/
structure Object (ω σ β γ : Type*) where
  effect : ω → σ → σ
  answer : ω → σ → β
  shows : β → γ → Bool

/-- What happens to an operation. -/
inductive Event (κ ω β γ : Type*)
  | submit (ticket : κ) (op : ω)
  | commit (ticket : κ) (answer : β)
  | report (ticket : κ) (shown : γ)

/-- An operation that has taken effect. -/
structure Entry (κ ω β : Type*) where
  ticket : κ
  op : ω
  answer : β

/-- The operations submitted so far, and those that have taken effect, in order. -/
structure State (κ ω β : Type*) where
  called : κ → Option ω
  log : List (Entry κ ω β)

variable {κ ω σ β γ : Type*}

/-- Nothing has been submitted. -/
def State.init : State κ ω β := ⟨fun _ => none, []⟩

namespace Object

variable (O : Object ω σ β γ) (x : σ)

/-- The object after the operations of a log. -/
def after (log : List (Entry κ ω β)) : σ := log.foldl (fun y e => O.effect e.op y) x

theorem after_append (log : List (Entry κ ω β)) (e : Entry κ ω β) :
    O.after x (log ++ [e]) = O.effect e.op (O.after x log) := by
  simp [after]

variable [DecidableEq κ] [DecidableEq β]

/-- The state after an event, `none` when the event is not possible. -/
def step (t : State κ ω β) : Event κ ω β γ → Option (State κ ω β)
  | .submit k op =>
    if (t.called k).isNone then some { t with called := Function.update t.called k (some op) }
    else none
  | .commit k b =>
    match t.called k with
    | some op =>
      if k ∉ t.log.map Entry.ticket ∧ O.answer op (O.after x t.log) = b then
        some { t with log := t.log ++ [⟨k, op, b⟩] }
      else none
    | none => none
  | .report k r =>
    if t.log.any fun e => e.ticket = k && O.shows e.answer r then some t else none

variable {O x} {t t' : State κ ω β} {h : List (Event κ ω β γ)} {k : κ} {op : ω} {b : β} {r : γ}
  {e : Entry κ ω β}

theorem step_commit (called : t.called k = some op) (fresh : k ∉ t.log.map Entry.ticket)
    (right : O.answer op (O.after x t.log) = b) :
    O.step x t (.commit k b) = some { t with log := t.log ++ [⟨k, op, b⟩] } := by
  simp [step, called, fresh, right]

theorem step_report (he : e ∈ t.log) (shown : O.shows e.answer r = true) :
    O.step x t (.report e.ticket r) = some t := by
  apply if_pos
  exact List.any_eq_true.2 ⟨e, he, by simp [shown]⟩

/-- What an event does. -/
inductive Stepped (O : Object ω σ β γ) (x : σ) (t : State κ ω β) :
    Event κ ω β γ → State κ ω β → Prop
  | submit (k : κ) (op : ω) (fresh : t.called k = none) :
    Stepped O x t (.submit k op) { t with called := Function.update t.called k (some op) }
  | commit (k : κ) (op : ω) (called : t.called k = some op)
    (fresh : k ∉ t.log.map Entry.ticket) :
    Stepped O x t (.commit k (O.answer op (O.after x t.log)))
      { t with log := t.log ++ [⟨k, op, O.answer op (O.after x t.log)⟩] }
  | report (e : Entry κ ω β) (r : γ) (he : e ∈ t.log) (shown : O.shows e.answer r = true) :
    Stepped O x t (.report e.ticket r) t

theorem stepped {ev : Event κ ω β γ} (hstep : O.step x t ev = some t') : Stepped O x t ev t' := by
  cases ev with
  | submit k op =>
    simp only [step, Option.ite_none_right_eq_some, Option.isNone_iff_eq_none] at hstep
    obtain ⟨fresh, ht⟩ := hstep
    cases ht
    exact .submit k op fresh
  | commit k b =>
    simp only [step] at hstep
    split at hstep
    next op called =>
      simp only [Option.ite_none_right_eq_some] at hstep
      obtain ⟨⟨fresh, rfl⟩, ht⟩ := hstep
      cases ht
      exact .commit k op called fresh
    next => cases hstep
  | report k r =>
    simp only [step, Option.ite_none_right_eq_some, List.any_eq_true] at hstep
    obtain ⟨⟨e, he, shown⟩, ht⟩ := hstep
    simp only [Bool.and_eq_true, decide_eq_true_eq] at shown
    obtain ⟨rfl, shown⟩ := shown
    cases ht
    exact .report e r he shown

/-- The induction over histories. -/
theorem run_induction (P : List (Event κ ω β γ) → State κ ω β → Prop) (init : P [] .init)
    (next : ∀ h ev t t', exec (O.step x) .init h = some t → P h t → Stepped O x t ev t' →
      P (h ++ [ev]) t')
    (hrun : exec (O.step x) .init h = some t) : P h t :=
  @exec_invariant _ _ (O.step x) .init (fun _ => True) P (fun _ _ => id) init
    (fun h ev t t' hrun _ inv hstep => next h ev t t' hrun inv (stepped hstep)) h t hrun trivial

theorem called_iff (hrun : exec (O.step x) .init h = some t) :
    t.called k = some op ↔ .submit k op ∈ h := by
  refine run_induction (fun h t => t.called k = some op ↔ .submit k op ∈ h)
    (by simp [State.init]) ?_ hrun
  intro h ev t t' _ inv hev
  cases hev with
  | submit k' op' fresh =>
    rw [List.mem_append, ← inv, List.mem_singleton]
    by_cases hk : k = k'
    · subst hk
      simp [fresh, eq_comm]
    · simp [hk]
  | commit | report => simpa using inv

theorem commit_mem (hrun : exec (O.step x) .init h = some t) (he : e ∈ t.log) :
    .commit e.ticket e.answer ∈ h := by
  refine run_induction (fun h t => ∀ e ∈ t.log, .commit e.ticket e.answer ∈ h)
    (by simp [State.init]) ?_ hrun e he
  intro h ev t t' _ inv hev e he
  cases hev with
  | submit | report => exact List.mem_append_left _ (inv e he)
  | commit k op called fresh =>
    rcases List.mem_append.1 he with he | he
    · exact List.mem_append_left _ (inv e he)
    · obtain rfl := List.mem_singleton.1 he
      exact List.mem_append_right _ (List.mem_singleton_self _)

theorem mem_log (hrun : exec (O.step x) .init h = some t) (hc : .commit k b ∈ h) :
    ∃ e ∈ t.log, e.ticket = k ∧ e.answer = b := by
  refine run_induction (fun h t => ∀ k b, .commit k b ∈ h →
    ∃ e ∈ t.log, e.ticket = k ∧ e.answer = b) (by simp) ?_ hrun k b hc
  intro h ev t t' _ inv hev k b hc
  cases hev with
  | submit | report => exact inv k b (by simpa using hc)
  | commit k' op called fresh =>
    rcases List.mem_append.1 hc with hc | hc
    · obtain ⟨e, he, found⟩ := inv k b hc
      exact ⟨e, List.mem_append_left _ he, found⟩
    · cases List.mem_singleton.1 hc
      exact ⟨_, List.mem_append_right _ (List.mem_singleton_self _), rfl, rfl⟩

end Object

/-! ## Linearizations -/

/-- The log explains the history.  No operation takes effect twice; every answer is the one the
operation gives after those before it; and the order of the history is respected: what has taken
effect at any moment of the history had been submitted by then, and had taken effect by then when it
had been reported. -/
structure Linearization (O : Object ω σ β γ) (x : σ) (h : List (Event κ ω β γ))
    (log : List (Entry κ ω β)) : Prop where
  once : (log.map Entry.ticket).Nodup
  sequential : ∀ pre e post, log = pre ++ e :: post → e.answer = O.answer e.op (O.after x pre)
  ordered : ∀ past future, h = past ++ future → ∃ early late, log = early ++ late ∧
    (∀ e ∈ early, .submit e.ticket e.op ∈ past) ∧
    ∀ k r, .report k r ∈ past → ∃ e ∈ early, e.ticket = k ∧ O.shows e.answer r = true

namespace Object

variable [DecidableEq κ] [DecidableEq β] {O : Object ω σ β γ} {x : σ} {t t' : State κ ω β}
  {h : List (Event κ ω β γ)}

/-- The log of a run. -/
structure Logged (O : Object ω σ β γ) (x : σ) (h : List (Event κ ω β γ)) (t : State κ ω β) :
    Prop where
  once : (t.log.map Entry.ticket).Nodup
  sequential : ∀ pre e post, t.log = pre ++ e :: post →
    e.answer = O.answer e.op (O.after x pre)
  submitted : ∀ e ∈ t.log, .submit e.ticket e.op ∈ h
  reported : ∀ k r, .report k r ∈ h → ∃ e ∈ t.log, e.ticket = k ∧ O.shows e.answer r = true

theorem logged (hrun : exec (O.step x) .init h = some t) : Logged O x h t := by
  refine run_induction (Logged O x) ⟨by simp [State.init], by simp [State.init],
    by simp [State.init], by simp⟩ ?_ hrun
  intro h ev t t' hrun inv hev
  cases hev with
  | submit k op fresh =>
    exact ⟨inv.once, inv.sequential, fun e he => List.mem_append_left _ (inv.submitted e he),
      fun k r hr => inv.reported k r (by simpa using hr)⟩
  | commit k op called fresh =>
    refine ⟨?_, fun pre e post hlog => ?_, fun e he => ?_, fun k' r hr => ?_⟩
    · rw [List.map_append, List.nodup_append]
      refine ⟨inv.once, by simp, fun a ha b hb => ?_⟩
      rintro rfl
      obtain rfl : a = k := by simpa using hb
      exact fresh ha
    · rcases split_append hlog with ⟨l, hl, -⟩ | ⟨l, rfl, hl⟩
      · exact inv.sequential pre e l hl
      · cases l with
        | nil =>
          obtain ⟨rfl, -⟩ := List.cons.inj hl
          rw [List.append_nil]
        | cons y l => simp at hl
    · rcases List.mem_append.1 he with he | he
      · exact List.mem_append_left _ (inv.submitted e he)
      · obtain rfl := List.mem_singleton.1 he
        exact List.mem_append_left _ ((called_iff hrun).1 called)
    · obtain ⟨e, he, found⟩ := inv.reported k' r (by simpa using hr)
      exact ⟨e, List.mem_append_left _ he, found⟩
  | report e r he shown =>
    refine ⟨inv.once, inv.sequential, fun e he => List.mem_append_left _ (inv.submitted e he),
      fun k r' hr => ?_⟩
    rcases List.mem_append.1 hr with hr | hr
    · exact inv.reported k r' hr
    · cases List.mem_singleton.1 hr
      exact ⟨e, he, rfl, shown⟩

theorem log_prefix (hrun : exec (O.step x) t h = some t') : t.log <+: t'.log := by
  induction h generalizing t with
  | nil =>
    obtain rfl := Option.some.inj hrun
    exact List.prefix_rfl
  | cons ev h ih =>
    simp only [exec, Option.bind_eq_some_iff] at hrun
    obtain ⟨m, hm, rest⟩ := hrun
    refine List.IsPrefix.trans ?_ (ih rest)
    cases stepped hm with
    | submit | report => exact List.prefix_rfl
    | commit => exact List.prefix_append ..

/-- The log of a run explains its history. -/
theorem linearization (hrun : exec (O.step x) .init h = some t) : Linearization O x h t.log where
  once := (logged hrun).once
  sequential := (logged hrun).sequential
  ordered := by
    rintro past future rfl
    obtain ⟨m, hm, rest⟩ := (exec_append_eq_some (O.step x)).1 hrun
    obtain ⟨late, hlate⟩ := log_prefix rest
    exact ⟨m.log, late, hlate.symm, (logged hm).submitted, (logged hm).reported⟩

end Object

/-- An operation that has been reported before another one is submitted takes effect before it. -/
theorem Linearization.before {O : Object ω σ β γ} {x : σ} {h past future : List (Event κ ω β γ)}
    {log : List (Entry κ ω β)} {k k' : κ} {r : γ} (lin : Linearization O x h log)
    (hh : h = past ++ future) (reported : .report k r ∈ past)
    (later : ∀ op, .submit k' op ∉ past) {pre post : List (Entry κ ω β)} {e : Entry κ ω β}
    (hlog : log = pre ++ e :: post) (he : e.ticket = k') : ∃ d ∈ pre, d.ticket = k := by
  obtain ⟨early, late, split, submitted, found⟩ := lin.ordered past future hh
  obtain ⟨d, hd, hk, -⟩ := found k r reported
  refine ⟨d, ?_, hk⟩
  rw [split] at hlog
  rcases split_append hlog with ⟨l, hl, -⟩ | ⟨l, rfl, -⟩
  · exact absurd (submitted e (hl ▸ by simp)) (he ▸ later _)
  · exact List.mem_append_left _ hd

end Deferred
