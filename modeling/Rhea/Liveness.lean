import Rhea.Schedule
import Rhea.Status

/-!
# What the calls come to

In a fair execution with finitely many calls every request is brought to its end
(`every_request_ends`), and every call returns or stays in a `Wait` forever
(`call_returns_or_hangs`): a client that hangs waits for a parcel whose entry has been taken by
another `Wait`, was never made, or is the `QUEUED` of a `Publish` that nobody will act on.
-/

namespace Rhea

open Transition Custody

variable {D : Deployment} {files : Files} {acts : List Action} {s s' : Sys} {a : Action}
  {m : Option Handover} {k : Key} {p q : Parcel} {c : ℕ} {r : Call} {e : Behaviour D files}
  {N n : ℕ}

/-- When nothing is on its way, every request has been completed or dropped. -/
theorem ledger_of_empty (hrun : run D files acts = some s) (empty : ∀ z, s.at z = []) :
    (↑(acts.flatMap Action.requested) : Multiset Parcel) =
      ↑((history D files acts).filterMap Observation.completed) +
        ↑(trace (step D) dropped (Sys.init files) acts) := by
  obtain ⟨w, c, balance⟩ := ledger hrun
  have none : w = 0 := by
    rw [Multiset.eq_zero_iff_forall_notMem]
    rintro ⟨z, p⟩ h
    have : p ∈ s.at z := c.mem.1 h
    simp [empty z] at this
  rw [balance, none]
  exact add_zero _

/-- No reachable state is a dead end: after every run the clients and the workers can go on, without
further calls and without failing operations, until nothing is on its way and every request that has
not been dropped so far is completed. -/
theorem can_drain (served : D.Served) (hrun : run D files acts = some s) :
    ∃ more s', run D files (acts ++ more) = some s' ∧ (∀ z, s'.at z = []) ∧
      (∀ a ∈ more, ∀ c, (∀ r, a ≠ .call c r) ∧ a ≠ .fail c) ∧
      (↑(acts.flatMap Action.requested) : Multiset Parcel) =
        ↑((history D files (acts ++ more)).filterMap Observation.completed) +
          ↑(trace (step D) dropped (Sys.init files) acts) := by
  obtain ⟨more, s', hrun', empty, quiet⟩ := exists_drained served hrun
  refine ⟨more, s', hrun', empty, quiet, ?_⟩
  have balance := ledger_of_empty hrun' empty
  have none : more.flatMap Action.requested = [] := by
    rw [List.flatMap_eq_nil_iff]
    intro a ha
    cases a with
    | call c r => exact absurd rfl ((quiet _ ha c).1 r)
    | _ => rfl
  have undropped : trace (step D) dropped s more = [] := by
    refine trace_eq_nil _ fun a ha s => ?_
    cases a with
    | fail c => exact absurd rfl (quiet _ ha c).2
    | _ => rfl
  rw [List.flatMap_append, none, List.append_nil, trace_append (step D) dropped more hrun,
    undropped, List.append_nil] at balance
  exact balance

/-- A parcel in the middle of a `Publish` and another one in a `Subscribe`. -/
theorem can_drain_two :
    let p : Parcel := ⟨"f", 0, 1, 0, 0, .publish⟩
    let q : Parcel := ⟨"f", 0, 1, 0, 1, .subscribe⟩
    let acts : List Action := [.call 0 (.publish p [97]), .client 0, .call 1 (.subscribe q [0])]
    ∃ more s', run (.single .rhea) (fun _ => none) (acts ++ more) = some s' ∧ ∀ z, s'.at z = [] := by
  intro p q acts
  have hrun := (Option.some_get (x := run (.single .rhea) (fun _ => none) acts)
    (by decide +kernel)).symm
  obtain ⟨more, s', hrun', empty, -⟩ := can_drain (Deployment.served_single .rhea) hrun
  exact ⟨more, s', hrun', empty⟩

/-- In a fair execution in which no more calls are made, every request is brought to its end once: in
the end nothing is on its way, and `DONE` has been recorded exactly once for every request that no
failing operation has dropped. -/
theorem every_request_ends (fair : Fair e) (ends : NoCallsAfter e N) :
    ∃ M ≥ N, ∀ n ≥ M, (∀ z, (e.state n).at z = []) ∧
      (↑((e.acts n).flatMap Action.requested) : Multiset Parcel) =
        ↑((history D files (e.acts n)).filterMap Observation.completed) +
          ↑(trace (step D) dropped (Sys.init files) (e.acts n)) := by
  obtain ⟨M, hM, rest⟩ := fair.settles ends
  exact ⟨M, hM, fun n hn => ⟨(rest n hn).2, ledger_of_empty (e.exec_acts n) (rest n hn).2⟩⟩

/-- An execution that begins with a `Publish` and a `Subscribe`. -/
theorem every_request_ends_two :
    let p : Parcel := ⟨"f", 0, 1, 0, 0, .publish⟩
    let q : Parcel := ⟨"f", 0, 1, 0, 1, .subscribe⟩
    let acts : List Action := [.call 0 (.publish p [97]), .client 0, .call 1 (.subscribe q [0])]
    ∃ e : Behaviour (.single .rhea) (fun _ => none), e.acts 3 = acts ∧
      ∃ M ≥ 3, ∀ n ≥ M, ∀ z, (e.state n).at z = [] := by
  intro p q acts
  have hrun := (Option.some_get (x := run (.single .rhea) (fun _ => none) acts)
    (by decide +kernel)).symm
  obtain ⟨e, hacts, fair, ends, -⟩ := exists_fair (Deployment.served_single .rhea) hrun
  obtain ⟨M, hM, rest⟩ := every_request_ends fair ends
  exact ⟨e, hacts, M, hM, fun n hn => (rest n hn).1⟩

/-! ## What is left to do of a call -/

/-- The operations left to a client when a `Wait` returns. -/
def AfterWait.left : AfterWait → ℕ
  | .application => 0
  | .subscribe _ => 2
  | .waitAll rest _ => 2 * rest.length

/-- The operations left to a client in a call, when no poll is in vain. -/
def ClientPC.left : ClientPC → ℕ
  | .idle | .returned _ => 0
  | .publishPut _ _ => 3
  | .publishPush _ => 2
  | .publishState _ _ => 1
  | .subscribePush _ _ => 5
  | .asyncPush _ => 1
  | .waitGet _ after => 2 + after.left
  | .waitErase _ _ after => 1 + after.left
  | .subscribeGet _ _ => 2
  | .subscribeErase _ _ _ => 1
  | .getDataGet _ _ => 2
  | .getDataErase _ _ => 1

theorem ClientPC.left_waitReturn (p : Parcel) (v : ParcelState) (after : AfterWait) :
    (waitReturn p v after).left = after.left := by
  cases after with
  | waitAll rest states =>
    cases rest with
    | nil => rfl
    | cons q rest =>
      simp only [waitReturn, waitAllNext, ClientPC.left, AfterWait.left, List.length_cons]
      omega
  | _ => rfl

theorem clientStep_left {sh sh' : Shared} {pc pc' : ClientPC}
    (hstep : clientStep D c sh pc = some (sh', pc')) :
    pc'.left < pc.left ∨ ∃ p after, pc = .waitGet p after ∧ pc' = pc ∧
      ∀ v, sh.parselState p.key = some v → v.status ≠ .done := by
  cases pc with
  | waitGet p after =>
    simp only [clientStep] at hstep
    split at hstep
    next v found =>
      split_ifs at hstep with completed <;> obtain ⟨-, rfl⟩ := Prod.mk.inj (Option.some.inj hstep)
      · left
        simp only [ClientPC.left]
        omega
      · refine .inr ⟨p, after, rfl, rfl, fun v' hv' => ?_⟩
        obtain rfl := Option.some.inj (found.symm.trans hv')
        exact completed
    next miss =>
      obtain ⟨-, rfl⟩ := Prod.mk.inj (Option.some.inj hstep)
      exact .inr ⟨p, after, rfl, rfl, fun v hv => by simp [miss] at hv⟩
  | waitErase p v after =>
    obtain ⟨-, rfl⟩ := Prod.mk.inj (Option.some.inj hstep)
    left
    show (waitReturn p v after).left < 1 + after.left
    rw [ClientPC.left_waitReturn]
    omega
  | getDataGet p d =>
    left
    obtain ⟨value, rfl⟩ | ⟨found, rfl⟩ := clientStep_getDataGet hstep <;> simp [ClientPC.left]
  | idle | returned => simp [clientStep] at hstep
  | _ =>
    obtain ⟨-, rfl⟩ := Prod.mk.inj (Option.some.inj hstep)
    exact .inl (by simp [ClientPC.left, AfterWait.left])

theorem clientFail_left {pc pc' : ClientPC} (hfail : clientFail pc = some pc') :
    pc'.left < pc.left := by
  cases pc <;> simp only [clientFail, reduceCtorEq, Option.some.injEq] at hfail <;> subst hfail <;>
    simp [ClientPC.left, AfterWait.left]

/-- The next operation of a client, also when it fails, leaves it less to do, or it is a poll that
does not find `DONE`. -/
theorem step_client_self (hstep : step D s a = some s') (ha : a = .client c ∨ a = .fail c) :
    (s'.client c).left < (s.client c).left ∨ ∃ p after, s.client c = .waitGet p after ∧
      ∀ v, s.parselState p.key = some v → v.status ≠ .done := by
  rcases ha with rfl | rfl
  · obtain ⟨⟨sh, pc⟩, hpc, rfl⟩ := Option.map_eq_some_iff.1 hstep
    simp only [Function.update_self]
    rcases clientStep_left hpc with less | ⟨p, after, pc, -, vain⟩
    · exact .inl less
    · exact .inr ⟨p, after, pc, vain⟩
  · obtain ⟨pc, hpc, rfl⟩ := Option.map_eq_some_iff.1 hstep
    simp only [Function.update_self]
    exact .inl (clientFail_left hpc)

theorem step_client_left (hstep : step D s a = some s') (noCall : ∀ c r, a ≠ .call c r) (c : ℕ) :
    s'.client c = s.client c ∨ (s'.client c).left < (s.client c).left := by
  rcases step_client hstep c with same | ⟨r, rfl, -, -⟩ | ⟨sh, -, hpc⟩ | ⟨-, hpc⟩
  · exact .inl same
  · exact absurd rfl (noCall c r)
  · rcases clientStep_left hpc with less | ⟨p, after, -, same, -⟩
    · exact .inr less
    · exact .inl same
  · exact .inr (clientFail_left hpc)

/-- Without further calls the program point of a client is constant in the end. -/
theorem exists_client_const (ends : NoCallsAfter e N) (c : ℕ) :
    ∃ M ≥ N, ∀ n ≥ M, (e.state n).client c = (e.state M).client c := by
  have change : ∀ n ≥ N, (e.state (n + 1)).client c = (e.state n).client c ∨
      ((e.state (n + 1)).client c).left < ((e.state n).client c).left :=
    fun n hn => step_client_left (e.next n) (ends n hn) c
  -- by induction on what is left to do: it decreases at the next change
  induction hl : ((e.state N).client c).left using Nat.strong_induction_on generalizing N with
  | _ l ih =>
    by_cases const : ∀ n ≥ N, (e.state n).client c = (e.state N).client c
    · exact ⟨N, le_rfl, const⟩
    · push Not at const
      obtain ⟨n, hn, hne⟩ := const
      have less : ((e.state n).client c).left < l := by
        clear ih
        induction n, hn using Nat.le_induction with
        | base => exact absurd rfl hne
        | succ n hn ih =>
          rcases change n hn with same | less
          · rw [same] at hne ⊢
            exact ih hne
          · by_cases same : (e.state n).client c = (e.state N).client c
            · rwa [same, hl] at less
            · exact less.trans (ih same)
      obtain ⟨M, hM, const⟩ := ih _ less (N := n) (fun m hm => ends m (by omega))
        (fun m hm => change m (by omega)) rfl
      exact ⟨M, by omega, const⟩

/-! ## The status of what nobody works on -/

/-- Whether `IN_PROGRESS` has been recorded for the parcels at a place, and `DONE` not yet. -/
def Deployment.marks (D : Deployment) : Place → Bool
  | .writeSource i .emit => (D.writeJob i).source.linked
  | .writeInbox | .writeSink _ _ | .readEmit _ | .readInbox | .readSink _ _ => true
  | _ => false

theorem Place.Next.marks {x y : Place} (h : x.Next y) (hx : D.marks x = true) :
    D.marks y = true := by
  cases h <;> simp_all [Deployment.marks]

/-- A parcel that leaves after `IN_PROGRESS` leaves with `DONE`. -/
theorem Step.done_of_leaves {z : Place} (h : Step D s a s' (some ⟨p, some z, none⟩))
    (hz : D.marks z = true) : ∃ t, s'.parselState p.key = some ⟨.done, t⟩ := by
  generalize hm : some (Handover.mk p (some z) none) = l at h
  cases h
  case call c r free => cases r <;> cases hm
  case sourceEmit i q rest pc =>
    simp only [Option.some.injEq, Handover.mk.injEq, Deployment.emitDst] at hm
    obtain ⟨-, rfl, last⟩ := hm
    simp only [Deployment.marks] at hz
    simp [hz] at last
  case sinkStatus j q t pc =>
    cases hm
    exact ⟨t, by simp⟩
  case readSinkStatus j q t pc =>
    cases hm
    exact ⟨t, by simp⟩
  all_goals cases hm <;> simp [Deployment.marks] at hz

theorem mem_of_inProgress (hrun : run D files acts = some s) {v : ParcelState}
    (hv : s.parselState k = some v) (hs : v.status = .inProgress) :
    ∃ z q, D.marks z = true ∧ q ∈ s.hold z ∧ q.key = k := by
  refine run_invariant (fun _ s => ∀ v, s.parselState k = some v → v.status = .inProgress →
    ∃ z q, D.marks z = true ∧ q ∈ s.hold z ∧ q.key = k) (fun v hv => by simp [Sys.init] at hv) ?_
    hrun v hv hs
  intro acts a s s' m _ _ inv h v hv hs
  rcases h.parselState_cases k with same | change
  · obtain ⟨z, q, hz, hq, rfl⟩ := inv v (same ▸ hv) hs
    cases m with
    | none => exact ⟨z, q, hz, h.hold_eq ▸ hq, rfl⟩
    | some m =>
      rcases h.transfer.mem_or_moved hq with stays | ⟨rfl, hsrc⟩
      · exact ⟨z, q, hz, stays, rfl⟩
      · obtain ⟨q, x, y⟩ := m
        obtain rfl : some z = x := hsrc
        cases y with
        | none =>
          obtain ⟨t, done⟩ := h.done_of_leaves hz
          obtain rfl := Option.some.inj (hv.symm.trans done)
          simp at hs
        | some y => exact ⟨y, q, h.next.marks hz, h.mem_dst, rfl⟩
  · rw [hv] at change
    generalize hw : some v = w at change
    cases change with
    | @sourceStatus i p t rest pc key =>
      cases hw
      refine ⟨_, p, ?_, h.mem_dst, key⟩
      cases hj : D.writeJob i <;>
        simp_all [Deployment.marks, WriteJob.source, rheaWriteQueueSourceTask,
          iofWriteQueueSourceTask]
    | @readStatus i p t rest pc key => exact ⟨_, p, rfl, h.mem_dst, key⟩
    | waitErase => simp at hw
    | _ =>
      cases hw
      simp at hs

theorem status_ne_none (hrun : run D files acts = some s) {v : ParcelState}
    (hv : s.parselState k = some v) : v.status ≠ .none := by
  refine run_invariant (fun _ s => ∀ v, s.parselState k = some v → v.status ≠ .none)
    (fun v hv => by simp [Sys.init] at hv) ?_ hrun v hv
  intro acts a s s' m _ _ inv h v hv
  rcases h.parselState_cases k with same | change
  · exact inv v (same ▸ hv)
  · rw [hv] at change
    generalize hw : some v = w at change
    cases change with
    | @sourceStatus i p t rest pc key =>
      cases hw
      cases hj : D.writeJob i <;>
        simp [WriteJob.source, rheaWriteQueueSourceTask, iofWriteQueueSourceTask]
    | waitErase => simp at hw
    | _ =>
      cases hw
      simp

theorem Step.done_of_still (h : Step D s a s' none) {v : ParcelState}
    (hv : s'.parselState k = some v) (hs : v.status = .done) : s.parselState k = some v := by
  rcases h.parselState_cases k with same | change
  · exact same ▸ hv
  · rw [hv] at change
    generalize hw : some v = w at change
    generalize hm : (none : Option Handover) = l at change
    cases change with
    | publishState pc key =>
      cases hw
      simp at hs
    | waitErase pc key => simp at hw
    | _ => simp at hm

/-! ## Calls return or hang -/

theorem Serves.polls {after : AfterWait} (h : Serves r (.waitGet q after)) : q ∈ r.polls := by
  cases h with
  | subscribeWait | wait => exact List.mem_singleton_self q
  | waitAll suffix => exact suffix.subset List.mem_cons_self

theorem serves_of_busy (called : e.act n = .call c r) {m : ℕ} (hm : n < m)
    (busy : ∀ k, n < k → k ≤ m → ((e.state k).client c).free = false) :
    Serves r ((e.state m).client c) := by
  induction m, hm using Nat.le_induction with
  | base =>
    obtain ⟨l, h⟩ := step_sound (called ▸ e.next n)
    have start := serves_clientStart r
    rw [← h.started, busy _ (Nat.lt_succ_self n) le_rfl] at start
    exact start.resolve_left (by simp)
  | succ m hm ih =>
    have before := ih fun k hk hkm => busy k hk (by omega)
    have next := busy (m + 1) (by omega) le_rfl
    rcases step_client (e.next m) c with same | ⟨r', -, free, -⟩ | ⟨sh, -, hpc⟩ | ⟨-, hpc⟩
    · exact same ▸ before
    · simp [before.free] at free
    · exact (before.clientStep hpc).resolve_left (by simp [next])
    · exact (before.clientFail hpc).resolve_left (by simp [next])

/-- A call that does not return stays in a `Wait` for a parcel for which, in the end, no state is
recorded or the state is `QUEUED` forever. -/
theorem returns_or_waits (fair : Fair e) (ends : NoCallsAfter e N)
    (called : e.act n = .call c r) :
    (∃ m > n, ((e.state m).client c).free = true) ∨
      ∃ q after, Serves r (.waitGet q after) ∧ ∃ M, ∀ m ≥ M,
        (e.state m).client c = .waitGet q after ∧
          ∀ v, (e.state m).parselState q.key = some v → v.status = .queued := by
  by_cases returns : ∃ m > n, ((e.state m).client c).free = true
  · exact .inl returns
  right
  have busy : ∀ m > n, ((e.state m).client c).free = false := by simpa using returns
  obtain ⟨M₁, hM₁, const⟩ := exists_client_const ends c
  obtain ⟨M₂, hM₂, rest⟩ := fair.settles ends
  let M := max M₁ (max M₂ (n + 1))
  have same : ∀ m ≥ M, (e.state m).client c = (e.state M).client c := fun m hm =>
    (const m (by omega)).trans (const M (by omega)).symm
  -- a client that is ready to go on would have less to do after its next step
  obtain ⟨m₀, hm₀, vain⟩ : ∃ m ≥ M, ¬ (e.state m).Ready c := by
    by_contra ready
    push Not at ready
    obtain ⟨m, hm, ha⟩ := fair.client M c ready
    rcases step_client_self (e.next m) ha with less | ⟨p, after, pc, vain⟩
    · rw [same (m + 1) (by omega), same m hm] at less
      exact absurd less (lt_irrefl _)
    · obtain ⟨v, hv, completed⟩ := (ready m hm).2 p after pc
      exact vain v hv completed
  obtain ⟨q, after, pc, pending⟩ : ∃ q after, (e.state m₀).client c = .waitGet q after ∧
      ∀ v, (e.state m₀).parselState q.key = some v → v.status ≠ .done := by
    simp only [Sys.Ready, busy m₀ (by omega), true_and] at vain
    push Not at vain
    exact vain
  have stays : ∀ m ≥ M, (e.state m).client c = .waitGet q after := fun m hm =>
    (same m hm).trans ((same m₀ hm₀).symm.trans pc)
  refine ⟨q, after, stays m₀ hm₀ ▸ serves_of_busy called (by omega) fun k hk _ => busy k hk, m₀, fun m hm => ?_⟩
  refine ⟨stays m (by omega), fun v hv => ?_⟩
  have notDone : ∀ v, (e.state m).parselState q.key = some v → v.status ≠ .done := by
    clear hv
    induction m, hm using Nat.le_induction with
    | base => exact pending
    | succ m hm ih =>
      intro v hv completed
      exact ih v ((rest m (by omega)).1.done_of_still hv completed) completed
  cases hs : v.status with
  | none => exact absurd hs (status_ne_none (e.exec_acts m) hv)
  | queued => rfl
  | inProgress =>
    obtain ⟨z, p, -, hp, -⟩ := mem_of_inProgress (e.exec_acts m) hv hs
    have held : p ∈ (e.state m).at z := hp
    simp [(rest m (by omega)).2 z] at held
  | done => exact absurd hs (notDone v hv)

/-- Every call returns or hangs in a `Wait`.  In a fair execution with finitely many calls, `Publish`,
`AsyncSubscribe` and `GetSubscribedData` return; `Subscribe`, `Wait` and `WaitAll` return or stay
forever in the `Wait` for a parcel for which, in the end, no state is recorded or the state is
`QUEUED` forever. -/
theorem call_returns_or_hangs (fair : Fair e) (ends : NoCallsAfter e N)
    (called : e.act n = .call c r) :
    (∃ m > n, ((e.state m).client c).free = true) ∨
      ∃ q ∈ r.polls, ∃ after, ∃ M, ∀ m ≥ M, (e.state m).client c = .waitGet q after ∧
        ∀ v, (e.state m).parselState q.key = some v → v.status = .queued := by
  rcases returns_or_waits fair ends called with returns | ⟨q, after, serves, M, hangs⟩
  · exact .inl returns
  · exact .inr ⟨q, serves.polls, after, M, hangs⟩

/-- A `Wait` for a parcel that nobody requests. -/
theorem call_returns_or_hangs_unrequested :
    let p : Parcel := ⟨"f", 0, 1, 0, 0, .publish⟩
    ∃ e : Behaviour (.single .rhea) (fun _ => none), e.act 0 = .call 0 (.wait p) ∧
      ((∃ m > 0, ((e.state m).client 0).free = true) ∨
        ∃ q ∈ (Call.wait p).polls, ∃ after, ∃ M, ∀ m ≥ M,
          (e.state m).client 0 = .waitGet q after ∧
            ∀ v, (e.state m).parselState q.key = some v → v.status = .queued) := by
  intro p
  have hrun := (Option.some_get (x := run (.single .rhea) (fun _ => none) [.call 0 (.wait p)])
    (by decide +kernel)).symm
  obtain ⟨e, hacts, fair, ends, -⟩ := exists_fair (Deployment.served_single .rhea) hrun
  have called : e.act 0 = .call 0 (.wait p) := by simpa [Execution.acts] using hacts
  exact ⟨e, called, call_returns_or_hangs fair ends called⟩

end Rhea
