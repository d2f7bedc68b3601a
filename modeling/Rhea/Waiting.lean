import Rhea.Polling

/-!
# Waiting for completed requests

`Wait` erases the entry that tells it that a request is done, so each completion answers one `Wait`
and no more.  `AtOnce` says that a sequence of `Wait` and `WaitAll` calls on completed parcels is
answered at the first polls in every interleaving with the other processes.  This is the case when no
parcel occurs in it twice, what is recorded for each is `DONE`, and nobody else is to wait for them
(`atOnce_of_alone`).
-/

namespace Rhea

open Transition

variable {D : Deployment} {files : Files} {acts more : List Action} {s s' : Sys} {a : Action}
  {m : Option Handover} {k : Key} {c : ℕ} {p : Parcel} {r : Call} {after : AfterWait}
  {calls : List (ℕ × Call)}

/-! ## Calls that only wait -/

/-- The keys for which a sequence of calls waits. -/
def waitKeys (calls : List (ℕ × Call)) : List Key :=
  (calls.flatMap fun x => x.2.waits).map Parcel.key

/-- Whether a call requests or waits for a parcel with one of the keys. -/
def Call.concerns (keys : List Key) (r : Call) : Bool :=
  (r.brings.any fun b => b.1.key ∈ keys) || r.polls.any fun p => p.key ∈ keys

/-- The calls of a run that request or wait for a parcel with one of the keys, each with its
client. -/
def callsConcerning (keys : List Key) (acts : List Action) : List (ℕ × Call) :=
  acts.filterMap fun a =>
    match a with
    | .call c r => if r.concerns keys then some (c, r) else none
    | _ => none

/-- What a call made in state `s` is to return: the states recorded for its parcels, in order, all
of them `DONE`. -/
def Answered (s : Sys) : Call → Return → Prop
  | .wait p, .wait st => s.parselState p.key = some st ∧ st.Done
  | .waitAll l, .waitAll states =>
    List.Forall₂ (fun p st => s.parselState p.key = some st ∧ st.Done) l states
  | _, _ => False

/-- Of all requests and waits for the keys of `calls`, the actions `more` make only `calls`, in any
order; and no status is recorded for these keys meanwhile. -/
structure Undisturbed (D : Deployment) (s : Sys) (calls : List (ℕ × Call)) (more : List Action) :
    Prop where
  made : (callsConcerning (waitKeys calls) more).Subperm calls
  unrecorded : ∀ q st, .recorded q st ∈ trace (step D) (observe D) s more → q.key ∉ waitKeys calls

/-- In every interleaving with the other processes, every poll for the parcels of `calls` finds a
completed one, and each of the calls has returned `DONE` states after one poll and one erase for
each parcel. -/
def AtOnce (D : Deployment) (s : Sys) (calls : List (ℕ × Call)) : Prop :=
  ∀ more s', exec (step D) s more = some s' → Undisturbed D s calls more →
    (∀ c p after, s'.client c = .waitGet p after → p.key ∈ waitKeys calls →
      ∃ st, s'.parselState p.key = some st ∧ st.Done) ∧
    ∀ pre c r post, more = pre ++ .call c r :: post → (c, r) ∈ calls → (∀ r', .call c r' ∉ post) →
      post.count (.client c) = 2 * r.waits.length →
      ∃ v, s'.client c = .returned v ∧ Answered s r v

/-! ## What is recorded, from the history -/

/-- The status recorded for key `k` after a report, given the one before it. -/
def Observation.cell (k : Key) (st : Option TaskStatus) : Observation → Option TaskStatus
  | .recorded p st' => if p.key = k then some st' else st
  | .waited p _ => if p.key = k then none else st
  | _ => st

/-- The reports of a step say what it does to the status recorded for a key. -/
theorem Step.cell (h : Step D s a s' m) (k : Key) :
    (s'.parselState k).map ParcelState.status =
      (observe D s a).foldl (Observation.cell k) ((s.parselState k).map ParcelState.status) := by
  cases h
  case publishState c p t pc =>
    by_cases hk : p.key = k
    · simp [observe, ClientPC.observe, pc, Observation.cell, hk]
    · simp [observe, ClientPC.observe, pc, Observation.cell, hk, Function.update_of_ne (Ne.symm hk)]
  case waitErase c p r after pc =>
    by_cases hk : p.key = k
    · simp [observe, ClientPC.observe, pc, Observation.cell, hk]
    · simp [observe, ClientPC.observe, pc, Observation.cell, hk, Function.update_of_ne (Ne.symm hk)]
  case sourceStatus i p t rest pc =>
    by_cases hk : p.key = k
    · simp [observe, WriteSourcePC.observe, pc, Observation.cell, hk]
    · simp [observe, WriteSourcePC.observe, pc, Observation.cell, hk,
        Function.update_of_ne (Ne.symm hk)]
  case sinkStatus j p t pc | readSinkStatus j p t pc =>
    by_cases hk : p.key = k
    · simp [observe, pc, Observation.cell, hk]
    · simp [observe, pc, Observation.cell, hk, Function.update_of_ne (Ne.symm hk)]
  case readStatus i p t rest pc =>
    by_cases hk : p.key = k
    · simp [observe, pc, Observation.cell, hk]
    · simp [observe, pc, Observation.cell, hk, Function.update_of_ne (Ne.symm hk)]
  case sourceWrite i p d rest pc =>
    cases hl : (D.writeJob i).source.linked <;>
      simp [observe, WriteSourcePC.observe, pc, hl, Observation.cell]
  case sourceNext i amount l pc ends =>
    simp [observe_sourceNext pc ends]
  all_goals simp [observe, ClientPC.observe, WriteSourcePC.observe, Observation.cell, *]

/-- What is recorded for a key can be read off the history. -/
theorem status_of_history (hrun : run D files acts = some s) (k : Key) :
    (s.parselState k).map ParcelState.status =
      (history D files acts).foldl (Observation.cell k) none := by
  refine run_invariant (fun acts s => (s.parselState k).map ParcelState.status =
    (history D files acts).foldl (Observation.cell k) none) rfl ?_ hrun
  intro acts a s s' m hrun hstep inv h
  rw [history_snoc hrun hstep, List.foldl_append, ← inv, h.cell]

theorem foldl_cell_eq_some {post : List Observation}
    (unrecorded : ∀ q st, .recorded q st ∈ post → q.key ≠ k) (st : Option TaskStatus)
    (v : TaskStatus) :
    post.foldl (Observation.cell k) st = some v ↔
      st = some v ∧ ∀ q r, .waited q r ∈ post → q.key ≠ k := by
  induction post generalizing st with
  | nil => simp
  | cons o post ih =>
    rw [List.foldl_cons, ih fun q st hq => unrecorded q st (List.mem_cons_of_mem _ hq)]
    cases o with
    | recorded q st' => simp [Observation.cell, unrecorded q st' (List.mem_cons_self ..)]
    | waited q r =>
      by_cases hq : q.key = k
      · simp only [Observation.cell, hq, if_true, reduceCtorEq, false_and, false_iff, not_and]
        exact fun _ all => all q r (List.mem_cons_self ..) hq
      · simp only [Observation.cell, hq, if_false, List.mem_cons, Observation.waited.injEq]
        refine and_congr_right fun _ => ⟨fun all q' r' hq' => ?_, fun all q' r' hq' => all q' r' (.inr hq')⟩
        rcases hq' with ⟨rfl, -⟩ | hq'
        · exact hq
        · exact all q' r' hq'
    | _ => simp [Observation.cell]

theorem Call.polls_of_onlyWaits (waits : r.onlyWaits = true) : r.polls = r.waits := by
  cases r <;> first | rfl | simp [Call.onlyWaits] at waits

theorem Call.concerns_of_mem {keys : List Key} (hp : p ∈ r.polls) (hk : p.key ∈ keys) :
    r.concerns keys = true := by
  unfold Call.concerns
  rw [Bool.or_eq_true, List.any_eq_true]
  exact .inr ⟨p, hp, by simpa using hk⟩

theorem callsConcerning_append (keys : List Key) (acts more : List Action) :
    callsConcerning keys (acts ++ more) = callsConcerning keys acts ++ callsConcerning keys more :=
  List.filterMap_append

theorem countKey_polls {keys : List Key} (hk : k ∈ keys) (acts : List Action) :
    countKey k (acts.flatMap Action.polls) =
      countKey k ((callsConcerning keys acts).flatMap fun x => x.2.polls) := by
  induction acts with
  | nil => rfl
  | cons a acts ih =>
    rw [← List.singleton_append, callsConcerning_append, List.flatMap_append, List.flatMap_append,
      countKey_append, countKey_append, ih, List.flatMap_singleton]
    congr 1
    cases a with
    | call c r =>
      by_cases hr : r.concerns keys = true
      · simp [callsConcerning, hr, Action.polls]
      · have none : countKey k r.polls = 0 := by
          refine List.countP_eq_zero.2 fun p hp hpk => hr (Call.concerns_of_mem hp ?_)
          rw [of_decide_eq_true hpk]
          exact hk
        simpa [callsConcerning, hr, Action.polls] using none
    | _ => rfl

theorem countKey_flatMap_le {l l' : List (ℕ × Call)} (h : l.Subperm l') (k : Key) :
    countKey k (l.flatMap fun x => x.2.polls) ≤ countKey k (l'.flatMap fun x => x.2.polls) := by
  obtain ⟨between, perm, sublist⟩ := h
  have same := (perm.flatMap_right fun x : ℕ × Call => x.2.polls).countP_eq fun p => p.key = k
  have less := (sublist.flatMap fun x : ℕ × Call => x.2.polls).countP_le (p := fun p => p.key = k)
  unfold countKey
  omega

/-! ## Nothing is reported, nothing changes -/

theorem Step.parselState_of_unreported (h : Step D s a s' m)
    (unrecorded : ∀ q st, .recorded q st ∈ observe D s a → q.key ≠ k)
    (unwaited : ∀ q v, .waited q v ∈ observe D s a → q.key ≠ k) :
    s'.parselState k = s.parselState k := by
  apply (h.parselState_cases k).resolve_right
  intro change
  generalize s'.parselState k = v at change
  cases change with
  | publishState pc key =>
    exact unrecorded _ .queued (by simp [observe, ClientPC.observe, pc]) key
  | @sourceStatus i _ _ _ pc key =>
    exact unrecorded _ (D.writeJob i).source.status
      (by simp [observe, WriteSourcePC.observe, pc]) key
  | sinkStatus pc key | readSinkStatus pc key =>
    exact unrecorded _ .done (by simp [observe, pc]) key
  | readStatus pc key => exact unrecorded _ .inProgress (by simp [observe, pc]) key
  | @waitErase _ _ v _ pc key =>
    exact unwaited _ v (by simp [observe, ClientPC.observe, pc]) key

theorem parselState_of_unreported (hexec : exec (step D) s more = some s')
    (unrecorded : ∀ q st, .recorded q st ∈ trace (step D) (observe D) s more → q.key ≠ k)
    (unwaited : ∀ q v, .waited q v ∈ trace (step D) (observe D) s more → q.key ≠ k) :
    s'.parselState k = s.parselState k := by
  induction more using List.reverseRecOn generalizing s' with
  | nil => rw [Option.some.inj hexec]
  | append_singleton more a ih =>
    obtain ⟨t, ht, ha⟩ := (exec_snoc_eq_some (step D)).1 hexec
    obtain ⟨_, h⟩ := step_sound ha
    rw [trace_snoc (step D) (observe D) ht ha] at unrecorded unwaited
    have before := ih ht (fun q st hq => unrecorded q st (List.mem_append_left _ hq))
      fun q v hq => unwaited q v (List.mem_append_left _ hq)
    rw [← before]
    apply h.parselState_of_unreported
    · exact fun q st hq => unrecorded q st (List.mem_append_right _ hq)
    · exact fun q v hq => unwaited q v (List.mem_append_right _ hq)

theorem Undisturbed.of_prefix (und : Undisturbed D s calls more)
    (hexec : exec (step D) s more = some s') {l : List Action} (hl : l <+: more) :
    Undisturbed D s calls l := by
  obtain ⟨later, rfl⟩ := hl
  obtain ⟨t, ht, -⟩ := (exec_append_eq_some (step D)).1 hexec
  constructor
  · have made := und.made
    rw [callsConcerning_append] at made
    exact (List.sublist_append_left ..).subperm.trans made
  · intro q st hq
    apply und.unrecorded q st
    rw [trace_append (step D) (observe D) later ht]
    exact List.mem_append_left _ hq

/-- While one of the calls waits for a key, what is recorded for it stays, when the keys are distinct
and nobody else waits for them. -/
theorem Undisturbed.kept (und : Undisturbed D s calls more)
    (hexec : exec (step D) s more = some s') (waits : ∀ x ∈ calls, x.2.onlyWaits = true)
    (distinct : (waitKeys calls).Nodup)
    (alone : ∀ c, ∀ p ∈ (s.client c).polls, p.key ∉ waitKeys calls)
    (pc : s'.client c = .waitGet p after) (hp : p.key ∈ waitKeys calls) :
    s'.parselState p.key = s.parselState p.key := by
  apply parselState_of_unreported hexec
  · intro q st hq hk
    exact und.unrecorded q st hq (hk ▸ hp)
  · intro q v hq hk
    have start (c : ℕ) : countKey p.key (s.client c).polls = 0 := by
      refine List.countP_eq_zero.2 fun q hq hqp => alone c q hq ?_
      rw [of_decide_eq_true hqp]
      exact hp
    have total := polls_le_of_exec start hexec {c}
    rw [Finset.sum_singleton, pc, countKey_polls hp] at total
    have made := countKey_flatMap_le und.made p.key
    -- the calls wait for the key once
    have same : calls.flatMap (fun x => x.2.polls) = calls.flatMap fun x => x.2.waits :=
      List.flatMap_congr fun x hx => Call.polls_of_onlyWaits (waits x hx)
    have once : countKey p.key (calls.flatMap fun x => x.2.waits) ≤ 1 := by
      have := List.nodup_iff_count_le_one.1 distinct p.key
      rw [waitKeys, List.count, List.countP_map] at this
      simpa [countKey, Function.comp_def, beq_eq_decide] using this
    have pending : 1 ≤ countKey p.key (ClientPC.waitGet p after).polls := by
      simp [ClientPC.polls, countKey_cons]
    have returned : 1 ≤ countKey p.key
        ((trace (step D) (observe D) s more).filterMap Observation.acknowledged) := by
      refine List.countP_pos_iff.2 ⟨q, List.mem_filterMap.2 ⟨_, hq, rfl⟩, ?_⟩
      simp [hk]
    rw [same] at made
    omega

/-! ## A call whose polls all find something -/

/-- Where a client stands in the loop of `WaitAll`, `n` operations after its head, when every poll
finds the state `found`. -/
def waitAllPcAfter (found : Parcel → ParcelState) : List Parcel → List ParcelState → ℕ → ClientPC
  | [], states, _ => .returned (.waitAll states)
  | p :: l, states, 0 => .waitGet p (.waitAll l states)
  | p :: l, states, 1 => .waitErase p (found p) (.waitAll l states)
  | p :: l, states, n + 2 => waitAllPcAfter found l (states ++ [found p]) n

/-- Where a client stands in a call that waits, `n` operations after it was entered, when every poll
finds the state `found`. -/
def Call.pcAfter (found : Parcel → ParcelState) : Call → ℕ → ClientPC
  | .wait p, 0 => .waitGet p .application
  | .wait p, 1 => .waitErase p (found p) .application
  | .wait p, _ + 2 => .returned (.wait (found p))
  | .waitAll l, n => waitAllPcAfter found l [] n
  | r, _ => clientStart r

theorem waitAllPcAfter_zero (found : Parcel → ParcelState) (l : List Parcel)
    (states : List ParcelState) : waitAllPcAfter found l states 0 = waitAllNext l states := by
  cases l <;> rfl

theorem Call.pcAfter_zero (found : Parcel → ParcelState) (r : Call) :
    r.pcAfter found 0 = clientStart r := by
  cases r with
  | waitAll l => exact waitAllPcAfter_zero found l []
  | _ => rfl

theorem waitAllPcAfter_end (found : Parcel → ParcelState) (l : List Parcel)
    (states : List ParcelState) :
    waitAllPcAfter found l states (2 * l.length) = .returned (.waitAll (states ++ l.map found)) := by
  induction l generalizing states with
  | nil => simp [waitAllPcAfter]
  | cons p l ih =>
    show waitAllPcAfter found l (states ++ [found p]) (2 * l.length) = _
    rw [ih]
    simp

variable {found : Parcel → ParcelState} {sh sh' : Shared} {pc : ClientPC}

theorem clientStep_found (ready : sh.parselState p.key = some (found p) ∧ (found p).Done)
    (hstep : clientStep D c sh (.waitGet p after) = some (sh', pc)) :
    pc = .waitErase p (found p) after := by
  obtain ⟨entry, done⟩ := ready
  simp only [clientStep, entry] at hstep
  rw [if_pos done] at hstep
  exact (Prod.mk.inj (Option.some.inj hstep)).2.symm

theorem waitAllPcAfter_succ {l : List Parcel} {states : List ParcelState} {n : ℕ}
    (ready : ∀ p after, waitAllPcAfter found l states n = .waitGet p after →
      sh.parselState p.key = some (found p) ∧ (found p).Done)
    (hstep : clientStep D c sh (waitAllPcAfter found l states n) = some (sh', pc)) :
    pc = waitAllPcAfter found l states (n + 1) := by
  induction l generalizing states n with
  | nil => simp [waitAllPcAfter, clientStep] at hstep
  | cons p l ih =>
    rcases n with _ | _ | n
    · exact clientStep_found (ready p _ rfl) hstep
    · obtain ⟨-, rfl⟩ := Prod.mk.inj (Option.some.inj hstep)
      exact (waitAllPcAfter_zero found l _).symm
    · exact ih ready hstep

theorem Call.pcAfter_succ {n : ℕ} (waits : r.onlyWaits = true)
    (ready : ∀ p after, r.pcAfter found n = .waitGet p after →
      sh.parselState p.key = some (found p) ∧ (found p).Done)
    (hstep : clientStep D c sh (r.pcAfter found n) = some (sh', pc)) :
    pc = r.pcAfter found (n + 1) := by
  cases r with
  | wait p =>
    rcases n with _ | _ | n
    · exact clientStep_found (ready p _ rfl) hstep
    · obtain ⟨-, rfl⟩ := Prod.mk.inj (Option.some.inj hstep)
      rfl
    · simp [Call.pcAfter, clientStep] at hstep
  | waitAll l => exact waitAllPcAfter_succ ready hstep
  | _ => simp [Call.onlyWaits] at waits

theorem clientFail_waitAllPcAfter (found : Parcel → ParcelState) (l : List Parcel)
    (states : List ParcelState) (n : ℕ) : clientFail (waitAllPcAfter found l states n) = none := by
  induction l generalizing states n with
  | nil => rfl
  | cons p l ih =>
    rcases n with _ | _ | n
    · rfl
    · rfl
    · exact ih _ n

theorem Call.clientFail_pcAfter (waits : r.onlyWaits = true) (n : ℕ) :
    clientFail (r.pcAfter found n) = none := by
  cases r with
  | wait p => rcases n with _ | _ | n <;> rfl
  | waitAll l => exact clientFail_waitAllPcAfter found l [] n
  | _ => simp [Call.onlyWaits] at waits

theorem Call.mem_of_pcAfter {n : ℕ} (waits : r.onlyWaits = true)
    (h : r.pcAfter found n = .waitGet p after) : p ∈ r.waits := by
  have loop (l : List Parcel) (states : List ParcelState) (n : ℕ)
      (h : waitAllPcAfter found l states n = .waitGet p after) : p ∈ l := by
    induction l generalizing states n with
    | nil => simp [waitAllPcAfter] at h
    | cons q l ih =>
      rcases n with _ | _ | n
      · obtain ⟨rfl, -⟩ := ClientPC.waitGet.inj h
        exact List.mem_cons_self
      · simp [waitAllPcAfter] at h
      · exact List.mem_cons_of_mem _ (ih _ n h)
  cases r with
  | wait q =>
    rcases n with _ | _ | n
    · obtain ⟨rfl, -⟩ := ClientPC.waitGet.inj h
      exact List.mem_cons_self
    · simp [Call.pcAfter] at h
    · simp [Call.pcAfter] at h
  | waitAll l => exact loop l [] n h
  | _ => simp [Call.onlyWaits] at waits

/-- As long as every poll for the keys of the calls finds its state, a client in one of the calls has
come as far as its number of operations says. -/
theorem client_pcAfter (waits : ∀ x ∈ calls, x.2.onlyWaits = true)
    (hexec : exec (step D) s more = some s')
    (ready : ∀ l t, l <+: more → exec (step D) s l = some t → ∀ c p after,
      t.client c = .waitGet p after → p.key ∈ waitKeys calls →
      t.parselState p.key = some (found p) ∧ (found p).Done)
    {pre post : List Action} (hmore : more = pre ++ .call c r :: post) (hr : (c, r) ∈ calls)
    (last : ∀ r', .call c r' ∉ post) :
    s'.client c = r.pcAfter found (post.count (.client c)) := by
  induction post using List.reverseRecOn generalizing more s' with
  | nil =>
    subst hmore
    obtain ⟨t, ht, ha⟩ := (exec_snoc_eq_some (step D)).1 hexec
    obtain ⟨_, h⟩ := step_sound ha
    rw [h.started]
    exact (Call.pcAfter_zero found r).symm
  | append_singleton post a ih =>
    rw [show pre ++ .call c r :: (post ++ [a]) = (pre ++ .call c r :: post) ++ [a] by simp] at hmore
    subst hmore
    obtain ⟨t, ht, ha⟩ := (exec_snoc_eq_some (step D)).1 hexec
    have before := ih ht (fun l t hl => ready l t (hl.trans (List.prefix_append ..))) rfl
      fun r' hr' => last r' (List.mem_append_left _ hr')
    have only := waits _ hr
    rw [List.count_append, List.count_singleton]
    by_cases own : a = .client c
    · subst own
      obtain ⟨⟨sh, pc⟩, hpc, rfl⟩ := Option.map_eq_some_iff.1 ha
      rw [before] at hpc
      simp only [Function.update_self, beq_self_eq_true, if_true]
      refine Call.pcAfter_succ only (fun p after hp => ?_) hpc
      refine ready _ t (List.prefix_append ..) ht c p after (before.trans hp) ?_
      exact List.mem_map_of_mem (List.mem_flatMap.2 ⟨_, hr, Call.mem_of_pcAfter only hp⟩)
    · have other : (a == .client c) = false := by simpa using own
      rw [other, if_neg (by simp), Nat.add_zero, ← before]
      rcases step_client ha c with same | ⟨r', rfl, -, -⟩ | ⟨_, rfl, -⟩ | ⟨rfl, hfail⟩
      · exact same
      · exact absurd (List.mem_append_right _ List.mem_cons_self) (last r')
      · exact absurd rfl own
      · rw [before, Call.clientFail_pcAfter only] at hfail
        cases hfail

theorem Call.answered_pcAfter (waits : r.onlyWaits = true)
    (recorded : ∀ p ∈ r.waits, s.parselState p.key = some (found p) ∧ (found p).Done) :
    ∃ v, r.pcAfter found (2 * r.waits.length) = .returned v ∧ Answered s r v := by
  cases r with
  | wait p => exact ⟨_, rfl, recorded p List.mem_cons_self⟩
  | waitAll l =>
    refine ⟨_, waitAllPcAfter_end found l [], ?_⟩
    show List.Forall₂ _ l ([] ++ l.map found)
    rw [List.nil_append, List.forall₂_map_right_iff, List.forall₂_same]
    exact recorded
  | _ => simp [Call.onlyWaits] at waits

/-- Distinct completed keys that nobody else waits for are answered at once. -/
theorem atOnce_of_alone (waits : ∀ x ∈ calls, x.2.onlyWaits = true)
    (ready : ∀ k ∈ waitKeys calls, ∃ st, s.parselState k = some st ∧ st.Done)
    (distinct : (waitKeys calls).Nodup)
    (alone : ∀ c, ∀ p ∈ (s.client c).polls, p.key ∉ waitKeys calls) : AtOnce D s calls := by
  let found (p : Parcel) : ParcelState := (s.parselState p.key).getD ⟨.done, 0⟩
  have entry {p : Parcel} (hp : p.key ∈ waitKeys calls) :
      s.parselState p.key = some (found p) ∧ (found p).Done := by
    obtain ⟨st, hst, done⟩ := ready p.key hp
    have : found p = st := by simp [found, hst]
    exact ⟨this ▸ hst, this ▸ done⟩
  intro more s' hexec und
  have polls (l t) (hl : l <+: more) (ht : exec (step D) s l = some t) (c p after)
      (pc : t.client c = .waitGet p after) (hp : p.key ∈ waitKeys calls) :
      t.parselState p.key = some (found p) ∧ (found p).Done := by
    have kept := (und.of_prefix hexec hl).kept ht waits distinct alone pc hp
    exact kept ▸ entry hp
  constructor
  · intro c p after pc hp
    exact ⟨_, polls more s' (List.prefix_refl _) hexec c p after pc hp⟩
  · intro pre c r post hmore hr last count
    rw [client_pcAfter waits hexec polls hmore hr last, count]
    apply Call.answered_pcAfter (waits _ hr)
    exact fun p hp => entry (List.mem_map_of_mem (List.mem_flatMap.2 ⟨_, hr, hp⟩))

end Rhea
