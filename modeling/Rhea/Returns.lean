import Rhea.Liveness
import Rhea.ReadYourWrites
import Rhea.Polling

/-!
# When the calls return

A parcel is `Orderly` in an execution when it is requested once and not dropped, `QUEUED` is recorded
for it before a worker records anything, and it is waited for once.  In a fair execution with finitely
many calls, every call that waits for orderly parcels returns (`waits_return`); and whether or not
anybody waits, the bytes of every published parcel come to their file and stay there
(`published_reach_file`).
-/

namespace Rhea

open Transition Custody ByteFile

variable {D : Deployment} {files : Files} {acts : List Action} {s s' : Sys} {a : Action}
  {m : Option Handover} {k : Key} {p q : Parcel} {c : ℕ} {r : Call} {d : Bytes}
  {e : Behaviour D files} {N n : ℕ}

/-! ## Keys that are waited for once -/

/-- While a client still waits for a key that is waited for once, no `Wait` for it has returned. -/
theorem not_waited (hrun : run D files acts = some s)
    (once : countKey k (acts.flatMap Action.polls) ≤ 1) {after : AfterWait} (hk : q.key = k)
    (pc : s.client c = .waitGet q after) {v : ParcelState} (hp : p.key = k) :
    .waited p v ∉ history D files acts := by
  intro ho
  have total := polls_le hrun k {c}
  rw [Finset.sum_singleton, pc] at total
  have pending : 1 ≤ countKey k (ClientPC.waitGet q after).polls := by
    simp [ClientPC.polls, countKey_cons, hk]
  have returned : 1 ≤ countKey k ((history D files acts).filterMap Observation.acknowledged) := by
    refine List.countP_pos_iff.2 ⟨p, List.mem_filterMap.2 ⟨_, ho, rfl⟩, ?_⟩
    simp [hp]
  omega

/-! ## `DONE` stays -/

theorem not_mem_of_done (hrun : run D files acts = some s)
    (once : countKey k (acts.flatMap Action.requested) ≤ 1) (hq : q.key = k)
    (done : .recorded q .done ∈ history D files acts) {z : Place} (awaits : D.awaits z = true)
    (hp : p ∈ s.hold z) : p.key ≠ k := by
  intro hk
  obtain ⟨w, c, balance⟩ := ledger hrun
  have counted := congrArg (Multiset.countP fun p => p.key = k) balance
  simp only [Multiset.countP_add, Multiset.coe_countP] at counted
  have completed : 1 ≤ ((history D files acts).filterMap Observation.completed).countP
      fun p => p.key = k :=
    List.countP_pos_iff.2 ⟨q, List.mem_filterMap.2 ⟨_, done, rfl⟩, by simp [hq]⟩
  have held : 1 ≤ (D.underway w).countP fun p => p.key = k := by
    refine Multiset.countP_pos.2 ⟨p, Multiset.mem_map.2 ⟨(z, p), ?_, rfl⟩, hk⟩
    exact Multiset.mem_filter.2 ⟨c.mem.2 hp, awaits⟩
  have : countKey k (acts.flatMap Action.requested) =
    (acts.flatMap Action.requested).countP fun p => p.key = k := rfl
  omega

theorem parselState_of_recorded {status : TaskStatus} (hstep : step D s a = some s')
    (ho : .recorded q status ∈ observe D s a) :
    ∃ t, s'.parselState q.key = some ⟨status, t⟩ := by
  obtain ⟨m, h⟩ := step_sound hstep
  generalize hst : Observation.recorded q status = o at ho
  cases h.observed ho with
  | publishState pc | sourceStatus pc | sinkStatus pc | readStatus pc | readSinkStatus pc =>
    cases hst
    simp [step, pc, clientStep, queueSourceStep, writeSinkStep, readSourceStep,
      readSinkStep] at hstep
    exact ⟨_, by simp [← hstep]; rfl⟩
  | _ => simp at hst

/-- For a key that is requested once and `QUEUED` first, a recorded `DONE` stays until a `Wait`
returns. -/
theorem done_or_waited (hrun : run D files acts = some s)
    (once : countKey k (acts.flatMap Action.requested) ≤ 1)
    (queued : QueuedFirst D files k acts) (hq : q.key = k)
    (done : .recorded q .done ∈ history D files acts) :
    (∃ v, s.parselState k = some v ∧ v.status = .done) ∨
      ∃ p v, p.key = k ∧ .waited p v ∈ history D files acts := by
  refine run_invariant_under
    (fun acts => countKey k (acts.flatMap Action.requested) ≤ 1 ∧ QueuedFirst D files k acts)
    (fun acts s => ∀ q, q.key = k → .recorded q .done ∈ history D files acts →
      (∃ v, s.parselState k = some v ∧ v.status = .done) ∨
        ∃ p v, p.key = k ∧ .waited p v ∈ history D files acts)
    ?_ (by simp) ?_ hrun ⟨once, queued⟩ q hq done
  · rintro acts a ⟨once, queued⟩
    rw [List.flatMap_append, countKey_append] at once
    refine ⟨by omega, fun pre c post s q t hacts => ?_⟩
    exact queued pre c (post ++ [a]) s q t (by simp [hacts])
  · rintro acts a s s' m hrun hstep ⟨once, queued⟩ inv h q hq done
    rw [history_snoc hrun hstep] at done ⊢
    have earlier : countKey k (acts.flatMap Action.requested) ≤ 1 := by
      rw [List.flatMap_append, countKey_append] at once
      omega
    rcases List.mem_append.1 done with before | now
    · rcases inv q hq before with ⟨v, hv, completed⟩ | ⟨p, v, hp, ho⟩
      · rcases h.parselState_cases k with same | change
        · exact .inl ⟨v, same.trans hv, completed⟩
        · generalize s'.parselState k = w at change
          cases change with
          | publishState pc key => simp [queued acts _ [] s _ _ rfl hrun pc key] at hv
          | sourceStatus pc key | readStatus pc key =>
            exact absurd key (not_mem_of_done hrun earlier hq before rfl h.mem_src)
          | sinkStatus pc key | readSinkStatus pc key => exact .inl ⟨_, rfl, rfl⟩
          | @waitErase c p v after pc key =>
            exact .inr ⟨p, v, key, by simp [observe, pc, ClientPC.observe]⟩
      · exact .inr ⟨p, v, hp, List.mem_append_left _ ho⟩
    · obtain ⟨t, recorded⟩ := parselState_of_recorded hstep now
      exact .inl ⟨_, hq ▸ recorded, rfl⟩

/-! ## Orderly keys -/

theorem exists_later (ends : NoCallsAfter e N) (h : N ≤ n) :
    ∃ later, e.acts n = e.acts N ++ later ∧ ∀ a ∈ later, ∀ c r, a ≠ .call c r := by
  obtain ⟨later, hlater⟩ := e.acts_prefix h
  refine ⟨later, hlater.symm, fun a ha => ?_⟩
  obtain ⟨pre, post, rfl⟩ := List.append_of_mem ha
  rw [← List.append_assoc] at hlater
  obtain ⟨-, rfl⟩ := e.acts_split hlater.symm
  exact ends _ (by simp)

theorem flatMap_acts {g : Action → List Parcel} (ends : NoCallsAfter e N) (h : N ≤ n)
    (others : ∀ a, (∀ c r, a ≠ .call c r) → g a = []) :
    (e.acts n).flatMap g = (e.acts N).flatMap g := by
  obtain ⟨later, hn, quiet⟩ := exists_later ends h
  have none : later.flatMap g = [] :=
    List.flatMap_eq_nil_iff.2 fun a ha => others a (quiet a ha)
  rw [hn, List.flatMap_append, none, List.append_nil]

theorem Action.requested_of_ne (h : ∀ c r, a ≠ .call c r) : a.requested = [] := by
  cases a with
  | call c r => exact absurd rfl (h c r)
  | _ => rfl

theorem Action.polls_of_ne (h : ∀ c r, a ≠ .call c r) : a.polls = [] := by
  cases a with
  | call c r => exact absurd rfl (h c r)
  | _ => rfl

/-- In an execution with its last call before `N`, key `k` is requested once and not dropped, `QUEUED`
is recorded for it while nothing else is, and it is waited for at most once. -/
structure Orderly (e : Behaviour D files) (N : ℕ) (k : Key) : Prop where
  requested : countKey k ((e.acts N).flatMap Action.requested) = 1
  polled : countKey k ((e.acts N).flatMap Action.polls) ≤ 1
  kept : ∀ n, ∀ p ∈ dropped (e.state n) (e.act n), p.key ≠ k
  queued : ∀ n c q t, e.act n = .client c → (e.state n).client c = .publishState q t →
    q.key = k → (e.state n).parselState k = none

theorem Orderly.queuedFirst (orderly : Orderly e N k) (n : ℕ) :
    QueuedFirst D files k (e.acts n) := by
  intro pre c post s q t hacts hrun pc hk
  obtain ⟨hpre, ha⟩ := e.acts_split hacts
  have hs := e.exec_acts pre.length
  rw [← hpre] at hs
  obtain rfl := Option.some.inj (hs.symm.trans hrun)
  exact orderly.queued pre.length c q t ha.symm pc hk

theorem Orderly.done (orderly : Orderly e N k) (fair : Fair e) (ends : NoCallsAfter e N) :
    ∃ M ≥ N, ∀ n ≥ M, ∃ q, q.key = k ∧ .recorded q .done ∈ history D files (e.acts n) := by
  obtain ⟨M, hM, rest⟩ := fair.settles ends
  refine ⟨M, hM, fun n hn => ?_⟩
  have balance := ledger_of_empty (e.exec_acts n) (rest n hn).2
  rw [flatMap_acts ends (by omega) fun _ => Action.requested_of_ne] at balance
  have counted := congrArg (Multiset.countP fun p => p.key = k) balance
  simp only [Multiset.countP_add, Multiset.coe_countP] at counted
  have kept : (trace (step D) dropped (Sys.init files) (e.acts n)).countP
      (fun p => decide (p.key = k)) = 0 := by
    rw [List.countP_eq_zero]
    intro p hp
    obtain ⟨m, -, hp⟩ := e.mem_trace_acts.1 hp
    simpa using orderly.kept m p hp
  have completed : 0 < ((history D files (e.acts n)).filterMap Observation.completed).countP
      fun p => p.key = k := by
    have := orderly.requested
    unfold countKey at this
    omega
  obtain ⟨q, hq, hk⟩ := List.countP_pos_iff.1 completed
  exact ⟨q, by simpa using hk, Observation.mem_of_completed hq⟩

/-- A call that waits for orderly keys returns. -/
theorem returns_of_orderly (fair : Fair e) (ends : NoCallsAfter e N) (called : e.act n = .call c r)
    (orderly : ∀ q ∈ r.polls, Orderly e N q.key) : ∃ m > n, ((e.state m).client c).free = true := by
  rcases returns_or_waits fair ends called with returns | ⟨q, after, serves, M, hangs⟩
  · exact returns
  · -- the entry of the parcel it hangs at would be `DONE` in the end
    have good := orderly q serves.polls
    obtain ⟨M', hM', done⟩ := good.done fair ends
    let m := max M M'
    obtain ⟨p, hp, recorded⟩ := done m (by omega)
    obtain ⟨pc, pending⟩ := hangs m (by omega)
    have once : countKey q.key ((e.acts m).flatMap Action.requested) ≤ 1 := by
      rw [flatMap_acts ends (by omega) fun _ => Action.requested_of_ne]
      exact good.requested.le
    have polled : countKey q.key ((e.acts m).flatMap Action.polls) ≤ 1 := by
      rw [flatMap_acts ends (by omega) fun _ => Action.polls_of_ne]
      exact good.polled
    rcases done_or_waited (e.exec_acts m) once (good.queuedFirst m) hp recorded with
      ⟨v, hv, completed⟩ | ⟨p', v, hp', waited⟩
    · have := pending v hv
      simp [completed] at this
    · exact absurd waited (not_waited (e.exec_acts m) polled rfl pc hp')

/-- What a client in a `Wait` or `WaitAll` has gathered: `DONE` states of the parcels before the one
it waits for. -/
def Call.Gathers : Call → ClientPC → Prop
  | .wait _, .waitGet _ .application => True
  | .wait _, .waitErase _ v .application => v.Done
  | .wait _, .returned (.wait v) => v.Done
  | .waitAll l, .waitGet _ (.waitAll rest states) =>
    states.length + (rest.length + 1) = l.length ∧ ∀ v ∈ states, v.Done
  | .waitAll l, .waitErase _ v (.waitAll rest states) =>
    states.length + (rest.length + 1) = l.length ∧ (∀ v ∈ states, v.Done) ∧ v.Done
  | .waitAll l, .returned (.waitAll states) => states.length = l.length ∧ ∀ v ∈ states, v.Done
  | _, _ => False

theorem Call.gathers_clientStart (waits : r.onlyWaits = true) : r.Gathers (clientStart r) := by
  cases r with
  | wait p => trivial
  | waitAll l =>
    cases l with
    | nil => exact ⟨rfl, by simp⟩
    | cons p l => exact ⟨by simp, by simp⟩
  | _ => simp [Call.onlyWaits] at waits

theorem Call.Gathers.clientStep {sh sh' : Shared} {pc pc' : ClientPC} (h : r.Gathers pc)
    (hstep : clientStep D c sh pc = some (sh', pc')) : r.Gathers pc' := by
  cases pc with
  | waitGet p after =>
    rcases clientStep_waitGet hstep with rfl | ⟨v, rfl, -, completed⟩
    · exact h
    · cases r with
      | wait q =>
        cases after with
        | application => exact completed
        | _ => exact h.elim
      | waitAll l =>
        cases after with
        | waitAll rest states => exact ⟨h.1, h.2, completed⟩
        | _ => exact h.elim
      | _ => exact h.elim
  | waitErase p v after =>
    obtain ⟨-, rfl⟩ := Prod.mk.inj (Option.some.inj hstep)
    cases r with
    | wait q =>
      cases after with
      | application => exact h
      | _ => exact h.elim
    | waitAll l =>
      cases after with
      | waitAll rest states =>
        obtain ⟨length, done, last⟩ := h
        have all : ∀ w ∈ states ++ [v], w.Done := by
          intro w hw
          rcases List.mem_append.1 hw with hw | hw
          · exact done w hw
          · exact List.mem_singleton.1 hw ▸ last
        cases rest with
        | nil => exact ⟨by simpa using length, all⟩
        | cons q rest =>
          refine ⟨?_, all⟩
          simp only [List.length_append, List.length_cons, List.length_nil] at length ⊢
          omega
      | _ => exact h.elim
    | _ => exact h.elim
  | idle | returned => simp [Rhea.clientStep] at hstep
  | _ => cases r <;> exact h.elim

/-- What a call that only waits has gathered while it is under way, and when it returns. -/
theorem gathers_of_called (called : e.act n = .call c r) (waits : r.onlyWaits = true) {m : ℕ}
    (hm : n < m) (busy : ∀ k, n < k → k < m → ((e.state k).client c).free = false) :
    r.Gathers ((e.state m).client c) := by
  induction m, hm using Nat.le_induction with
  | base =>
    obtain ⟨l, h⟩ := step_sound (called ▸ e.next n)
    exact h.started ▸ Call.gathers_clientStart waits
  | succ m hm ih =>
    have before := ih fun k hk hkm => busy k hk (by omega)
    rcases step_client (e.next m) c with same | ⟨r', -, free, -⟩ | ⟨sh, -, hpc⟩ | ⟨-, hpc⟩
    · exact same ▸ before
    · simp [busy m hm (by omega)] at free
    · exact before.clientStep hpc
    · generalize (e.state m).client c = pc at before hpc
      cases pc <;> simp only [clientFail, reduceCtorEq] at hpc
      all_goals cases r <;> exact before.elim

/-- In a fair execution with finitely many calls, `Wait` and `WaitAll` on orderly parcels return, with
one `DONE` state for each parcel. -/
theorem waits_return (fair : Fair e) (ends : NoCallsAfter e N) (called : e.act n = .call c r)
    (waits : r.onlyWaits = true) (orderly : ∀ q ∈ r.polls, Orderly e N q.key) :
    ∃ m > n, ((∃ q v, r = .wait q ∧ (e.state m).client c = .returned (.wait v) ∧ v.Done) ∨
      ∃ l states, r = .waitAll l ∧ (e.state m).client c = .returned (.waitAll states) ∧
        states.length = l.length ∧ ∀ v ∈ states, v.Done) := by
  classical
  have returns := returns_of_orderly fair ends called orderly
  obtain ⟨hm, free⟩ := Nat.find_spec returns
  have gathers := gathers_of_called called waits hm fun k hk hkm => by
    simpa [hk] using Nat.find_min returns hkm
  refine ⟨Nat.find returns, hm, ?_⟩
  generalize (e.state (Nat.find returns)).client c = pc at free gathers
  cases pc with
  | returned v =>
    cases r with
    | wait q =>
      cases v with
      | wait v => exact .inl ⟨q, v, rfl, rfl, gathers⟩
      | _ => exact gathers.elim
    | waitAll l =>
      cases v with
      | waitAll states => exact .inr ⟨l, states, rfl, rfl, gathers⟩
      | _ => exact gathers.elim
    | _ => exact gathers.elim
  | idle => cases r <;> exact gathers.elim
  | _ => simp [ClientPC.free] at free

theorem call_mem_acts (ends : NoCallsAfter e N) (h : .call c r ∈ e.acts n) :
    .call c r ∈ e.acts N := by
  rcases Nat.le_total n N with hle | hle
  · exact (e.acts_prefix hle).subset h
  · obtain ⟨later, hn, quiet⟩ := exists_later ends hle
    rw [hn] at h
    exact (List.mem_append.1 h).resolve_right fun h => quiet _ h c r rfl

theorem dropped_of_ne (h : ∀ c, a ≠ .fail c) : dropped s a = [] := by
  cases a with
  | fail c => exact absurd rfl (h c)
  | _ => rfl

/-- A client that reads two parcels asynchronously and waits for both. -/
theorem waits_return_two :
    let p : Parcel := ⟨"f", 0, 1, 0, 0, .subscribe⟩
    let q : Parcel := ⟨"f", 1, 1, 0, 1, .subscribe⟩
    let acts : List Action := [.call 0 (.asyncSubscribe p), .client 0, .call 0 (.asyncSubscribe q),
      .client 0, .call 0 (.waitAll [q, p])]
    ∃ e : Behaviour (.single .rhea) (fun _ => none), e.acts 5 = acts ∧
      ∃ m > 4, ∃ states, (e.state m).client 0 = .returned (.waitAll states) ∧
        states.length = 2 ∧ ∀ v ∈ states, v.Done := by
  intro p q acts
  have hrun := (Option.some_get (x := run (.single .rhea) (fun _ => none) acts)
    (by decide +kernel)).symm
  obtain ⟨e, hacts, fair, ends, kept⟩ := exists_fair (Deployment.served_single .rhea) hrun
  have begins : e.acts 5 = acts := hacts
  have called : e.act 4 = .call 0 (.waitAll [q, p]) := by
    have split : e.acts 5 = acts.take 4 ++ .call 0 (.waitAll [q, p]) :: [] := begins
    exact (e.acts_split split).2.symm
  have undropped : ∀ n, dropped (e.state n) (e.act n) = [] := by
    intro n
    apply dropped_of_ne
    intro c hfail
    rcases Nat.lt_or_ge n 5 with hn | hn
    · have mem : Action.fail c ∈ acts := begins ▸ e.mem_acts.2 ⟨n, hn, hfail⟩
      simp [acts] at mem
    · exact kept n hn c hfail
  have orderly : ∀ x ∈ (Call.waitAll [q, p]).polls, Orderly e 5 x.key := by
    intro x hx
    refine ⟨?_, ?_, fun n y hy => by simp [undropped] at hy, fun n c y _ _ pc _ => ?_⟩
    · rw [begins]
      revert x
      decide
    · rw [begins]
      revert x
      decide
    · obtain ⟨r, hr, serves⟩ := (served (e.exec_acts n) c).resolve_left (by simp [pc, ClientPC.free])
      have mem := call_mem_acts (N := 5) ends hr
      rw [begins] at mem
      rw [pc] at serves
      cases serves
      simp [acts] at mem
  obtain ⟨m, hm, ⟨x, v, hx, -⟩ | ⟨l, states, hl, pc, length, done⟩⟩ :=
    waits_return (N := 5) fair ends called rfl orderly
  · simp at hx
  · obtain rfl := Call.waitAll.inj hl
    exact ⟨e, begins, m, hm, states, pc, length, done⟩

theorem publishes_acts (ends : NoCallsAfter e N) (h : N ≤ n) :
    publishes (e.acts n) = publishes (e.acts N) := by
  obtain ⟨later, hn, quiet⟩ := exists_later ends h
  have none : publishes later = [] := by
    rw [List.eq_nil_iff_forall_not_mem]
    rintro ⟨p, d⟩ hp
    obtain ⟨c, ha⟩ := mem_publishes.1 hp
    exact quiet _ ha c _ rfl
  rw [hn, publishes, List.filterMap_append]
  exact (congrArg _ none).trans (List.append_nil _)

/-- The bytes of every published parcel that is not dropped come to its file, and stay there. -/
theorem published_reach_file (rhea : ∀ i, D.writeJob i = .rhea) (fair : Fair e)
    (ends : NoCallsAfter e N) (distinct : DistinctKeys (e.acts N)) (full : FullBuffers (e.acts N))
    (disjoint : DisjointRanges (e.acts N)) (names : NoStagingIds (e.acts N))
    (published : .call c (.publish p d) ∈ e.acts N)
    (kept : ∀ m, p ∉ dropped (e.state m) (e.act m)) :
    ∃ M, ∀ m ≥ M, ∃ f, (e.state m).files (D.destination p) = some f ∧ Holds f p.position d := by
  obtain ⟨M, hM, rest⟩ := fair.settles ends
  refine ⟨M, fun m hm => ?_⟩
  obtain ⟨later, hlater, quiet⟩ := exists_later ends (by omega : N ≤ m)
  have same := publishes_acts ends (by omega : N ≤ m)
  have called : .call c (.publish p d) ∈ e.acts m := hlater ▸ List.mem_append_left _ published
  have mem := mem_publishes.2 ⟨c, called⟩
  have uses : (e.acts m).countP (Action.uses p.key) ≤ 1 := by
    have none : later.countP (Action.uses p.key) = 0 := by
      rw [List.countP_eq_zero]
      intro a ha
      cases a with
      | call c r => exact absurd rfl (quiet _ ha c r)
      | _ => simp [Action.uses]
    rw [hlater, List.countP_append, none]
    exact distinct _ (same ▸ mem)
  have only := PublishOnly.of_mem called uses
  have requested : p ∈ ((e.acts m).flatMap Action.requested : Multiset Parcel) := by
    rw [Multiset.mem_coe, List.mem_flatMap]
    exact ⟨_, called, by simp [Action.requested, Call.brings]⟩
  rw [ledger_of_empty (e.exec_acts m) (rest m hm).2, Multiset.mem_add, Multiset.mem_coe,
    Multiset.mem_coe] at requested
  have recorded : .recorded p .done ∈ history D files (e.acts m) := by
    rcases requested with completed | lost
    · exact Observation.mem_of_completed completed
    · obtain ⟨k, -, lost⟩ := e.mem_trace_acts.1 lost
      exact absurd lost (kept k)
  have apart : AllApart D p (e.acts m) := by
    apply allApart_of_disjoint
    · exact fun x hx => full x (same ▸ hx)
    · exact fun x hx y hy => disjoint x (same ▸ hx) y (same ▸ hy)
    · exact fun x hx y hy => names x (same ▸ hx) y (same ▸ hy)
    · exact ⟨d, mem⟩
  exact written_holds rhea only (full _ (same ▸ mem)).2 apart (e.exec_acts m)
    (written_of_recorded rhea only (e.exec_acts m) rfl recorded)

/-- Three clients publish to two files, two of them to one file. -/
theorem published_reach_file_three :
    let p : Parcel := ⟨"f", 2, 1, 0, 0, .publish⟩
    let q : Parcel := ⟨"f", 0, 2, 0, 1, .publish⟩
    let r : Parcel := ⟨"g", 1, 1, 0, 2, .publish⟩
    let acts : List Action :=
      [.call 0 (.publish p [97]), .call 1 (.publish q [98, 99]), .call 2 (.publish r [100])]
    ∃ e : Behaviour (.single .rhea) (fun _ => none), e.acts 3 = acts ∧
      (∃ M, ∀ m ≥ M, ∃ f, (e.state m).files (0, "f") = some f ∧ Holds f 2 [97]) ∧
      (∃ M, ∀ m ≥ M, ∃ f, (e.state m).files (0, "f") = some f ∧ Holds f 0 [98, 99]) ∧
      ∃ M, ∀ m ≥ M, ∃ f, (e.state m).files (0, "g") = some f ∧ Holds f 1 [100] := by
  intro p q r acts
  have hrun := (Option.some_get (x := run (.single .rhea) (fun _ => none) acts)
    (by decide +kernel)).symm
  obtain ⟨e, hacts, fair, ends, quiet⟩ := exists_fair (Deployment.served_single .rhea) hrun
  have begins : e.acts 3 = acts := hacts
  have kept (m : ℕ) (x : Parcel) : x ∉ dropped (e.state m) (e.act m) := by
    have succeeds : ∀ c, e.act m ≠ .fail c := by
      intro c
      by_cases hm : m < 3
      · have mem : e.act m ∈ e.acts 3 := e.mem_acts.2 ⟨m, hm, rfl⟩
        rw [begins] at mem
        rintro ha
        simp [acts, ha] at mem
      · exact quiet m (by simpa [acts] using hm) c
    simp [dropped_of_ne succeeds]
  refine ⟨e, begins, ?_, ?_, ?_⟩
  · exact published_reach_file (N := 3) (p := p) (c := 0) (fun _ => rfl) fair ends
      (begins ▸ by decide) (begins ▸ by decide) (begins ▸ by decide) (begins ▸ by decide)
      (begins ▸ by decide) fun m => kept m p
  · exact published_reach_file (N := 3) (p := q) (c := 1) (fun _ => rfl) fair ends
      (begins ▸ by decide) (begins ▸ by decide) (begins ▸ by decide) (begins ▸ by decide)
      (begins ▸ by decide) fun m => kept m q
  · exact published_reach_file (N := 3) (p := r) (c := 2) (fun _ => rfl) fair ends
      (begins ▸ by decide) (begins ▸ by decide) (begins ▸ by decide) (begins ▸ by decide)
      (begins ▸ by decide) fun m => kept m r

/-! ## `Subscribe` -/

theorem subscribed_of_free (hstep : step D s a = some s')
    (serves : Serves (.subscribe p d) (s.client c)) (free : (s'.client c).free = true) :
    ∃ b x, .subscribed p b x ∈ observe D s a ∧ s'.client c = .returned (.subscribe b x) := by
  rcases step_client hstep c with same | ⟨r, -, idle, -⟩ | ⟨sh, rfl, hpc⟩ | ⟨-, hpc⟩
  · rw [same, serves.free] at free
    simp at free
  · simp [serves.free] at idle
  · generalize pc : s.client c = before at serves hpc
    cases serves with
    | @subscribeErase _ _ b x =>
      obtain ⟨-, hpc⟩ := Prod.mk.inj (Option.some.inj hpc)
      exact ⟨b, x, by simp [observe, pc, ClientPC.observe], hpc.symm⟩
    | subscribeWait =>
      obtain h | ⟨v, h, -⟩ := clientStep_waitGet hpc <;> simp [h, ClientPC.free] at free
    | _ =>
      obtain ⟨-, hpc⟩ := Prod.mk.inj (Option.some.inj hpc)
      simp [← hpc, ClientPC.free, waitReturn] at free
  · generalize s.client c = before at serves hpc
    cases serves <;> simp [clientFail] at hpc
    simp [← hpc, ClientPC.free] at free

theorem Call.touches_of_polls (h : p ∈ r.polls) : r.touches p.key = true := by
  cases r with
  | waitAll l => exact Bool.or_eq_true_iff.2 (.inr (List.any_eq_true.2 ⟨p, h, by simp⟩))
  | _ => simp_all [Call.polls, Call.touches, Call.uses, Call.waits]

theorem Call.touches_of_brings {b : Bool} (h : r.brings = some (p, b)) :
    r.touches p.key = true := by
  rw [Call.touches, Call.uses_of_brings h, Bool.true_or]

theorem countKey_callsOn {f : Call → List Parcel} {g : Action → List Parcel}
    (calls : ∀ c r, g (.call c r) = f r) (others : ∀ a, (∀ c r, a ≠ .call c r) → g a = [])
    (touches : ∀ r, ∀ p ∈ f r, r.touches p.key = true) (acts : List Action) :
    countKey k (acts.flatMap g) = countKey k ((callsOn k acts).flatMap fun x => f x.2) := by
  induction acts with
  | nil => rfl
  | cons a acts ih =>
    rw [List.flatMap_cons, countKey_append, ih]
    cases a with
    | call c r =>
      rw [calls]
      cases htouch : r.touches k with
      | true => simp [callsOn, htouch, countKey_append]
      | false =>
        have none : countKey k (f r) = 0 := by
          refine List.countP_eq_zero.2 fun p hp => ?_
          intro hk
          have := touches r p hp
          simp only [decide_eq_true_eq] at hk
          rw [hk, htouch] at this
          simp at this
        simp [callsOn, htouch, none]
    | _ => simp [others, callsOn]

theorem callsOn_acts (ends : NoCallsAfter e N) (h : N ≤ n) (k : Key) :
    callsOn k (e.acts n) = callsOn k (e.acts N) := by
  obtain ⟨later, hn, quiet⟩ := exists_later ends h
  have none : callsOn k later = [] := by
    rw [List.eq_nil_iff_forall_not_mem]
    rintro ⟨c, r⟩ hr
    exact quiet _ (mem_callsOn.1 hr).1 c r rfl
  rw [hn, callsOn, List.filterMap_append]
  exact (congrArg _ none).trans (List.append_nil _)

theorem callsOn_prefix (ends : NoCallsAfter e N) (n : ℕ) (k : Key) :
    callsOn k (e.acts n) <+: callsOn k (e.acts N) := by
  rcases Nat.le_total n N with h | h
  · exact (e.acts_prefix h).filterMap _
  · exact (callsOn_acts ends h k) ▸ List.prefix_rfl

/-- A key on which the only call is a `Subscribe` that is not dropped is orderly. -/
theorem orderly_of_subscribe (ends : NoCallsAfter e N)
    (only : callsOn p.key (e.acts N) = [(c, .subscribe p d)])
    (kept : ∀ m, ∀ q ∈ dropped (e.state m) (e.act m), q.key ≠ p.key) : Orderly e N p.key where
  requested := by
    rw [countKey_callsOn (f := fun r => (r.brings.map Prod.fst).toList) (g := Action.requested)
      (fun _ _ => rfl) (fun _ => Action.requested_of_ne) (fun r q hq => ?_), only]
    · simp [Call.brings, countKey_cons]
    · simp only [Option.mem_toList, Option.map_eq_some_iff] at hq
      obtain ⟨⟨q', b⟩, hb, rfl⟩ := hq
      exact Call.touches_of_brings hb
  polled := by
    rw [countKey_callsOn (f := Call.polls) (g := Action.polls) (fun _ _ => rfl)
      (fun _ => Action.polls_of_ne) (fun r q hq => Call.touches_of_polls hq), only]
    simp [Call.polls, countKey_cons]
  kept := kept
  queued m c' q t _ pc hk := by
    have once : ReadOnce c p d (e.acts m) := .inl (only ▸ callsOn_prefix ends m p.key)
    exact absurd ⟨q, hk, .inr (.inl ⟨t, pc⟩)⟩ (once.not_publishing (e.exec_acts m))

/-- In a fair execution with finitely many calls, a `Subscribe` with a fresh key whose push succeeds
returns `true`, with the bytes that a sink has read for it. -/
theorem subscribe_returns (fair : Fair e) (ends : NoCallsAfter e N)
    (called : e.act n = .call c (.subscribe p d))
    (only : callsOn p.key (e.acts N) = [(c, .subscribe p d)])
    (kept : ∀ m, ∀ q ∈ dropped (e.state m) (e.act m), q.key ≠ p.key) :
    ∃ m > n, ∃ bytes, .fetched p bytes ∈ history D files (e.acts m) ∧
      (e.state m).client c =
        .returned (.subscribe true (blit d (charStruct D.charStructSize bytes))) := by
  classical
  have returns := returns_of_orderly fair ends called fun q hq => by
    obtain rfl := List.mem_singleton.1 hq
    exact orderly_of_subscribe ends only kept
  obtain ⟨hm, free⟩ := Nat.find_spec returns
  have busy : ∀ k, n < k → k < Nat.find returns → ((e.state k).client c).free = false :=
    fun k hk hkm => by simpa [hk] using Nat.find_min returns hkm
  generalize Nat.find returns = m at hm free busy
  -- the client is busy after the call, so it returns later
  obtain ⟨l, h⟩ := step_sound (called ▸ e.next n)
  have start := h.started
  obtain ⟨k, hk, rfl⟩ : ∃ k, n < k ∧ m = k + 1 := by
    rcases Nat.lt_or_ge (n + 1) m with hlt | hge
    · exact ⟨m - 1, by omega, by omega⟩
    · obtain rfl : m = n + 1 := by omega
      rw [start] at free
      simp [clientStart, ClientPC.free] at free
  have serves := serves_of_busy called hk fun j hj hjk => busy j hj (by omega)
  obtain ⟨b, x, ho, pc⟩ := subscribed_of_free (e.next k) serves free
  have seen : .subscribed p b x ∈ history D files (e.acts (k + 1)) := by
    rw [e.acts_succ, history_snoc (e.exec_acts k) (e.next k)]
    exact List.mem_append_right _ ho
  obtain ⟨rfl, bytes, read, rfl⟩ := fetched_of_subscribed
    (only ▸ callsOn_prefix ends (k + 1) p.key) (e.exec_acts (k + 1)) seen
  exact ⟨k + 1, hm, bytes, read, pc⟩

/-- A single `Subscribe`. -/
theorem subscribe_returns_one :
    let p : Parcel := ⟨"f", 1, 2, 0, 0, .subscribe⟩
    ∃ e : Behaviour (.single .rhea) (fun _ => some [97, 98, 99]),
      e.act 0 = .call 0 (.subscribe p [0, 0]) ∧
        ∃ m > 0, ∃ bytes, .fetched p bytes ∈ history (.single .rhea) (fun _ => some [97, 98, 99])
            (e.acts m) ∧
          (e.state m).client 0 = .returned (.subscribe true (blit [0, 0] (charStruct 64 bytes))) :=
  by
  intro p
  have hrun := (Option.some_get (x := run (.single .rhea) (fun _ => some [97, 98, 99])
    [.call 0 (.subscribe p [0, 0])]) (by decide +kernel)).symm
  obtain ⟨e, hacts, fair, ends, kept⟩ := exists_fair (Deployment.served_single .rhea) hrun
  have begins : e.acts 1 = [.call 0 (.subscribe p [0, 0])] := hacts
  have called : e.act 0 = .call 0 (.subscribe p [0, 0]) := by
    simpa [Execution.acts] using begins
  refine ⟨e, called, subscribe_returns (N := 1) fair ends called (begins ▸ by decide) fun m => ?_⟩
  cases m with
  | zero => simp [called, dropped]
  | succ m => simp [dropped_of_ne (kept (m + 1) (by simp))]

end Rhea
