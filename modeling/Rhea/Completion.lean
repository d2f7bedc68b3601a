import Rhea.Cycle
import Rhea.Status

/-!
# A completion belongs to its own request

`Publish` resets the status of its key, `Subscribe` and `AsyncSubscribe` do not.  A `Wait` is answered
by the completion of the last request as long as no read is requested while the status still shows
the completion of an earlier one (`completion_of_last_request`).
-/

namespace Rhea

open Transition Custody ByteFile

variable {D : Deployment} {files : Files} {acts : List Action} {s s' : Sys} {a : Action}
  {m : Option Handover} {k : Key} {p q : Parcel} {r : Call} {c c' : ℕ} {d e : Bytes}

/-- In the run only client `c` calls for key `k`, it requests the key only when nothing is under way
for it, and its `Publish` calls for the key do not fail. -/
structure OneByOne (D : Deployment) (files : Files) (c : ℕ) (k : Key) (acts : List Action) :
    Prop where
  client : ∀ c' r, .call c' r ∈ acts → r.touches k = true → c' = c
  serial : Serial D files k acts
  stored : ∀ pre c' post t, acts = pre ++ .fail c' :: post → run D files pre = some t →
    ¬ (t.client c').Publishing k

/-- When a read of key `k` is requested in the run, the status recorded for it is not `DONE`. -/
def CompletionsConsumed (D : Deployment) (files : Files) (k : Key) (acts : List Action) : Prop :=
  ∀ pre c r post t q v, acts = pre ++ .call c r :: post → run D files pre = some t →
    r.brings = some (q, false) → q.key = k → t.parselState k = some v → v.status ≠ .done

theorem OneByOne.of_append (h : OneByOne D files c k (acts ++ [a])) : OneByOne D files c k acts where
  client c' r hr := h.client c' r (List.mem_append_left _ hr)
  serial := h.serial.of_append
  stored pre c' post t hacts := h.stored pre c' (post ++ [a]) t (by simp [hacts])

theorem CompletionsConsumed.of_append (h : CompletionsConsumed D files k (acts ++ [a])) :
    CompletionsConsumed D files k acts := by
  intro pre c r post t q v hacts
  exact h pre c r (post ++ [a]) t q v (by simp [hacts])

theorem completionsConsumed_nil : CompletionsConsumed D files k [] :=
  fun _ _ _ _ _ _ _ h => by simp at h

theorem CompletionsConsumed.append (h : CompletionsConsumed D files k acts) {more : List Action}
    (none : ∀ a ∈ more, a.requests k = false) :
    CompletionsConsumed D files k (acts ++ more) := by
  intro pre c r post t q v hacts hrun brings hk
  rcases split_append hacts with ⟨l, rfl, -⟩ | ⟨l, -, rfl⟩
  · exact h pre c r l t q v rfl hrun brings hk
  · have := none (.call c r) (by simp)
    simp [Action.requests, Call.requests, brings, hk] at this

theorem CompletionsConsumed.request (h : CompletionsConsumed D files k acts)
    (hrun : run D files acts = some s)
    (consumed : ∀ v, s.parselState k = some v → v.status ≠ .done) :
    CompletionsConsumed D files k (acts ++ [.call c r]) := by
  intro pre c' r' post t q v hacts hrun' brings hk hv
  rcases split_append hacts with ⟨l, rfl, -⟩ | ⟨l, rfl, hl⟩
  · exact h pre c' r' l t q v rfl hrun' brings hk hv
  · obtain ⟨rfl, -⟩ : l = [] ∧ _ := by simpa using (List.append_eq_singleton_iff.1 hl.symm)
    rw [List.append_nil] at hrun'
    obtain rfl := Option.some.inj (hrun.symm.trans hrun')
    exact consumed v hv

theorem oneByOne_of_all (serial : Serial D files k acts)
    (all : acts.all (fun a =>
      match a with
      | .call c' r => !r.touches k || c' = c
      | .fail _ => false
      | _ => true) = true) : OneByOne D files c k acts := by
  rw [List.all_eq_true] at all
  refine ⟨fun c' r hr touches => ?_, serial, fun pre c' post t hacts => ?_⟩
  · simpa [touches] using all _ hr
  · simpa using all (.fail c') (by simp [hacts])

theorem Call.touches_of_requests (h : r.requests k = true) : r.touches k = true := by
  cases r <;> simp_all [Call.requests, Call.brings, Call.touches, Call.uses]

theorem OneByOne.eq_of_serves (h : OneByOne D files c k acts) (hrun : run D files acts = some s)
    (touches : ∀ r, Serves r (s.client c') → r.touches k = true)
    (busy : (s.client c').free = false) : c' = c := by
  obtain ⟨r, hr, hs⟩ := (served hrun c').resolve_left (by simp [busy])
  exact h.client c' r hr (touches r hs)

theorem touches_of_waitErase {result : ParcelState} {after : AfterWait} (hk : q.key = k)
    (h : Serves r (.waitErase q result after)) : r.touches k = true := by
  cases h with
  | subscribeWaited => simp [Call.touches, Call.uses, hk]
  | waited => simp [Call.touches, Call.waits, hk]
  | waitedAll mem =>
    have hq := mem.subset (List.mem_cons_self ..)
    simp only [Call.touches, Call.uses, Call.waits, Bool.false_or, List.any_eq_true]
    exact ⟨q, hq, by simpa using hk⟩

theorem ClientPC.Publishing.not_free {pc : ClientPC} (h : pc.Publishing k) : pc.free = false := by
  obtain ⟨q, -, rfl | ⟨t, rfl⟩ | ⟨e, rfl⟩⟩ := h <;> rfl

/-- A recorded `DONE` is the completion of the last request, unless that is a `Publish` whose
`QUEUED` is still to come. -/
theorem doneIn_of_parselState (one : OneByOne D files c k acts)
    (consumed : CompletionsConsumed D files k acts) (hrun : run D files acts = some s)
    {v : ParcelState} (hv : s.parselState k = some v) (completed : v.status = .done) :
    DoneIn k (sinceRequest k (history D files acts)) ∨ (s.client c).Publishing k := by
  refine run_invariant_under
    (fun acts => OneByOne D files c k acts ∧ CompletionsConsumed D files k acts)
    (fun acts s => ∀ v, s.parselState k = some v → v.status = .done →
      DoneIn k (sinceRequest k (history D files acts)) ∨ (s.client c).Publishing k)
    (fun _ _ ok => ⟨ok.1.of_append, ok.2.of_append⟩) (fun v hv => by simp [Sys.init] at hv) ?_ hrun
    ⟨one, consumed⟩ v hv completed
  rintro acts a s s' m hrun hstep ⟨one, consumed⟩ inv h v hv completed
  rcases cycle_cases k hrun hstep with ⟨c', r, rfl, requests, -⟩ | ⟨others, since, -⟩
  · -- a new request: a read would find the old completion, a publish is under way
    right
    obtain rfl := one.client c' r (by simp) (Call.touches_of_requests requests)
    cases h with
    | call _ _ free =>
      cases r with
      | publish p d =>
        have hk : p.key = k := by simpa [Call.requests, Call.brings] using requests
        exact ⟨p, hk, .inr (.inr ⟨_, Function.update_self ..⟩)⟩
      | subscribe p d | asyncSubscribe p =>
        have hk : p.key = k := by simpa [Call.requests, Call.brings] using requests
        exact absurd completed (consumed acts c' _ [] s p v rfl hrun rfl hk hv)
      | _ => simp [Call.requests, Call.brings] at requests
  · rw [since, doneIn_append]
    rcases h.parselState_cases k with same | change
    · rcases inv v (same ▸ hv) completed with done | publishing
      · exact .inl (.inl done)
      · rcases step_client hstep c with stays | ⟨r, -, free, -⟩ | ⟨sh, rfl, hpc⟩ | ⟨rfl, -⟩
        · exact .inr (stays ▸ publishing)
        · simp [publishing.not_free] at free
        · obtain ⟨q, hq, pc | ⟨t, pc⟩ | ⟨e, pc⟩⟩ := id publishing
          · rw [pc] at hpc
            simp only [clientStep, Option.some.injEq, Prod.mk.injEq] at hpc
            exact .inr ⟨q, hq, .inr (.inl ⟨_, hpc.2.symm⟩)⟩
          · -- `QUEUED` has just replaced what was recorded
            simp only [step, pc, clientStep, Option.map_some, Option.some.injEq] at hstep
            have queued : s'.parselState k = some ⟨.queued, t⟩ := by
              rw [← hstep, ← hq]
              exact Function.update_self ..
            rw [hv] at queued
            cases queued
            simp at completed
          · rw [pc] at hpc
            simp only [clientStep, Option.some.injEq, Prod.mk.injEq] at hpc
            exact .inr ⟨q, hq, .inl hpc.2.symm⟩
        · exact absurd publishing (one.stored acts c [] s rfl hrun)
    · rw [hv] at change
      obtain ⟨q, hq, ho⟩ := change.recorded_mem_observe
      exact .inl (.inr ⟨q, hq, completed ▸ ho⟩)

theorem Step.not_call_of_serves (h : Step D s (.call c r) s' m) (busy : (s.client c).free = false) :
    False := by
  cases h with
  | call _ _ free => simp [busy] at free

/-- A `Wait` that has found `DONE` has found the completion of the last request. -/
theorem doneIn_of_waitErase (one : OneByOne D files c k acts)
    (consumed : CompletionsConsumed D files k acts) (hrun : run D files acts = some s)
    {result : ParcelState} {after : AfterWait} (pc : s.client c' = .waitErase q result after)
    (hk : q.key = k) : DoneIn k (sinceRequest k (history D files acts)) := by
  refine run_invariant_under
    (fun acts => OneByOne D files c k acts ∧ CompletionsConsumed D files k acts)
    (fun acts s => ∀ c' q result after, s.client c' = .waitErase q result after → q.key = k →
      DoneIn k (sinceRequest k (history D files acts)))
    (fun _ _ ok => ⟨ok.1.of_append, ok.2.of_append⟩) (fun c' q r after pc => by simp [Sys.init] at pc)
    ?_ hrun ⟨one, consumed⟩ c' q result after pc hk
  rintro acts a s s' m hrun hstep ⟨one, consumed⟩ inv h c' q result after pc hk
  have same : c' = c := one.eq_of_serves ((exec_snoc_eq_some _).2 ⟨s, hrun, hstep⟩)
    (fun r hs => touches_of_waitErase hk (pc ▸ hs)) (by rw [pc]; rfl)
  subst same
  -- the client waits before the step as well, so it makes no request
  have busy : (s.client c').free = false := by
    rcases step_waitErase hstep pc with pc | ⟨pc, -⟩ <;> rw [pc] <;> rfl
  rcases cycle_cases k hrun hstep with ⟨c'', r, rfl, requests, -⟩ | ⟨-, since, -⟩
  · obtain rfl := one.client c'' r (by simp) (Call.touches_of_requests requests)
    exact (h.not_call_of_serves busy).elim
  · rw [since]
    refine DoneIn.append ?_
    rcases step_waitErase hstep pc with pc | ⟨pc, -, found, completed⟩
    · exact inv c' q result after pc hk
    · refine (doneIn_of_parselState one.of_append consumed.of_append hrun (hk ▸ found)
        completed).resolve_right ?_
      rintro ⟨q', -, pc' | pc' | ⟨e, pc'⟩⟩ <;> simp [pc] at pc'

/-! ## Inside `Subscribe` -/

/-- The client stands in a `Subscribe` of a parcel with key `k`. -/
def ClientPC.Subscribing (k : Key) (pc : ClientPC) : Prop :=
  ∃ p d, p.key = k ∧ Serves (.subscribe p d) pc

theorem subscribing_of_clientStep {sh sh' : Shared} {pc pc' : ClientPC}
    (hstep : clientStep D c sh pc = some (sh', pc')) (h : pc'.Subscribing k) : pc.Subscribing k := by
  obtain ⟨p, d, hk, hs⟩ := h
  cases pc with
  | subscribePush q e =>
    obtain ⟨-, rfl⟩ := Prod.mk.inj (Option.some.inj hstep)
    cases hs
    exact ⟨p, d, hk, .subscribePush⟩
  | waitGet q after =>
    obtain rfl | ⟨result, rfl, -, -⟩ := clientStep_waitGet hstep
    · exact ⟨p, d, hk, hs⟩
    · cases hs
      exact ⟨p, d, hk, .subscribeWait⟩
  | waitErase q result after =>
    obtain ⟨-, rfl⟩ := Prod.mk.inj (Option.some.inj hstep)
    cases after with
    | subscribe e =>
      cases hs
      exact ⟨p, d, hk, .subscribeWaited⟩
    | waitAll rest states => cases rest <;> cases hs
    | application => cases hs
  | subscribeGet q e =>
    obtain ⟨-, rfl⟩ := Prod.mk.inj (Option.some.inj hstep)
    cases hs
    exact ⟨p, e, hk, .subscribeGet⟩
  | _ =>
    simp only [clientStep] at hstep
    try split at hstep
    all_goals try simp at hstep
    all_goals try obtain ⟨-, rfl⟩ := hstep
    all_goals cases hs

theorem subscribing_of_clientFail {pc pc' : ClientPC} (hfail : clientFail pc = some pc')
    (h : pc'.Subscribing k) : pc.Subscribing k := by
  obtain ⟨p, d, hk, hs⟩ := h
  cases pc <;> simp [clientFail] at hfail <;> subst hfail <;> cases hs
  exact ⟨p, d, hk, .subscribePush⟩

theorem eq_subscribe_of_serves {pc : ClientPC} (h : Serves (.subscribe p d) pc) (h' : Serves r pc) :
    ∃ d', r = .subscribe p d' := by
  cases h <;> cases h' <;> exact ⟨_, rfl⟩

theorem ClientPC.Subscribing.not_free {pc : ClientPC} (h : pc.Subscribing k) : pc.free = false := by
  obtain ⟨p, d, -, hs⟩ := h
  exact hs.free

theorem subscribe_touches (hk : p.key = k) : Call.touches k (.subscribe p d) = true := by
  simp [Call.touches, Call.uses, hk]

theorem OneByOne.eq_of_subscribing (h : OneByOne D files c k acts)
    (hrun : run D files acts = some s) (subscribing : (s.client c').Subscribing k) : c' = c := by
  obtain ⟨p, d, hk, hs⟩ := id subscribing
  refine h.eq_of_serves hrun (fun r hr => ?_) subscribing.not_free
  obtain ⟨d', rfl⟩ := eq_subscribe_of_serves hs hr
  exact subscribe_touches hk

theorem eq_subscribe_of_clientStart (h : (clientStart r).Subscribing k) :
    ∃ p d, p.key = k ∧ r = .subscribe p d := by
  obtain ⟨p, d, hk, hs⟩ := id h
  have serves := (serves_clientStart r).resolve_left (by simp [h.not_free])
  obtain ⟨d', rfl⟩ := eq_subscribe_of_serves hs serves
  exact ⟨p, d', hk, rfl⟩

/-- While a client stands in a `Subscribe`, that is the last request, and nobody has taken the
data since. -/
theorem lastRequest_of_subscribing (one : OneByOne D files c k acts)
    (hrun : run D files acts = some s) (h : (s.client c').Subscribing k) :
    ∃ p d, p.key = k ∧ lastRequest k (history D files acts) = some (.subscribe p d) ∧
      Serves (.subscribe p d) (s.client c') ∧
      ¬ TakenIn k (sinceRequest k (history D files acts)) := by
  refine run_invariant_under (OneByOne D files c k)
    (fun acts s => ∀ c', (s.client c').Subscribing k →
      ∃ p d, p.key = k ∧ lastRequest k (history D files acts) = some (.subscribe p d) ∧
        Serves (.subscribe p d) (s.client c') ∧
        ¬ TakenIn k (sinceRequest k (history D files acts)))
    (fun _ _ => OneByOne.of_append)
    (fun c' subscribing => by have := subscribing.not_free; simp [Sys.init, ClientPC.free] at this)
    ?_ hrun one c' h
  intro acts a s s' m hrun hstep one inv h c' subscribing
  have same := one.eq_of_subscribing ((exec_snoc_eq_some _).2 ⟨s, hrun, hstep⟩) subscribing
  subst same
  rcases cycle_cases k hrun hstep with ⟨c'', r, rfl, requests, since, last⟩ | ⟨others, since, last⟩
  · obtain rfl := one.client c'' r (by simp) (Call.touches_of_requests requests)
    rw [h.started] at subscribing ⊢
    obtain ⟨p, d, hk, rfl⟩ := eq_subscribe_of_clientStart subscribing
    refine ⟨p, d, hk, last, .subscribePush, ?_⟩
    rw [since]
    rintro ⟨_, _, _, _, ho⟩
    simp at ho
  · have before : (s.client c').Subscribing k ∧ ∀ r, Serves r (s.client c') →
        (s'.client c').free = true ∨ Serves r (s'.client c') := by
      rcases step_client hstep c' with stays | ⟨r, rfl, -, hpc⟩ | ⟨sh, rfl, hpc⟩ | ⟨rfl, hpc⟩
      · exact ⟨stays ▸ subscribing, fun r hr => .inr (stays ▸ hr)⟩
      · rw [hpc] at subscribing
        obtain ⟨p, d, hk, rfl⟩ := eq_subscribe_of_clientStart subscribing
        have := others c' _ rfl
        simp [Call.requests, Call.brings, hk] at this
      · exact ⟨subscribing_of_clientStep hpc subscribing, fun r hr => hr.clientStep hpc⟩
      · exact ⟨subscribing_of_clientFail hpc subscribing, fun r hr => hr.clientFail hpc⟩
    obtain ⟨p, d, hk, last', serves, untaken⟩ := inv c' before.1
    refine ⟨p, d, hk, last.trans last',
      (before.2 _ serves).resolve_left (by simp [subscribing.not_free]), ?_⟩
    rw [since, takenIn_append]
    refine not_or.2 ⟨untaken, ?_⟩
    -- only this client could take the data, and it would leave `Subscribe` with that
    rintro ⟨q, b, e, hq, ho⟩
    generalize hst : Observation.subscribed q b e = o at ho
    cases h.observed ho with
    | @subscribed c'' _ _ _ pc =>
      cases hst
      obtain rfl := one.of_append.eq_of_serves hrun
        (fun r hr => by rw [pc] at hr; cases hr; exact subscribe_touches hq) (by rw [pc]; rfl)
      simp only [step, pc, clientStep, Option.map_some, Option.some.injEq] at hstep
      have := subscribing.not_free
      simp [← hstep, ClientPC.free] at this
    | @missed c'' _ _ pc | @gotData c'' _ _ pc =>
      cases hst
      obtain rfl := one.of_append.eq_of_serves hrun
        (fun r hr => by rw [pc] at hr; cases hr; simp [Call.touches, Call.uses, hq]) (by rw [pc]; rfl)
      rw [pc] at serves
      cases serves
    | _ => simp at hst

/-! ## What `Subscribe` returns -/

theorem subscribeGet_of_clientStep {sh sh' : Shared} {pc : ClientPC}
    (hstep : clientStep D c sh pc = some (sh', .subscribeGet q d)) :
    ∃ result, pc = .waitErase q result (.subscribe d) := by
  cases pc with
  | waitErase p result after =>
    simp only [clientStep, Option.some.injEq, Prod.mk.injEq] at hstep
    cases after with
    | subscribe e =>
      obtain ⟨-, h⟩ := hstep
      cases h
      exact ⟨result, rfl⟩
    | waitAll rest states => cases rest <;> simp [waitReturn, waitAllNext] at hstep
    | application => simp [waitReturn] at hstep
  | waitGet p after =>
    obtain h | ⟨result, h, -, -⟩ := clientStep_waitGet hstep <;> cases h
  | getDataGet p e =>
    obtain ⟨v, h⟩ | ⟨found, h⟩ := clientStep_getDataGet hstep <;> cases h
  | _ => simp [clientStep] at hstep

theorem subscribeErase_of_clientStep {sh sh' : Shared} {pc : ClientPC} {b : Bool}
    (hstep : clientStep D c sh pc = some (sh', .subscribeErase q b e)) :
    ∃ d, pc = .subscribeGet q d ∧ b = (sh.warehouse q.key).isSome ∧
      e = blit d (charStruct D.charStructSize (sh.getData q)) := by
  cases pc with
  | subscribeGet p d =>
    simp only [clientStep, Option.some.injEq, Prod.mk.injEq, ClientPC.subscribeErase.injEq] at hstep
    obtain ⟨-, rfl, rfl, rfl⟩ := hstep
    exact ⟨d, rfl, rfl, rfl⟩
  | waitErase p result after =>
    simp only [clientStep, Option.some.injEq, Prod.mk.injEq] at hstep
    cases after with
    | waitAll rest states => cases rest <;> simp [waitReturn, waitAllNext] at hstep
    | _ => simp [waitReturn] at hstep
  | waitGet p after =>
    obtain h | ⟨result, h, -, -⟩ := clientStep_waitGet hstep <;> cases h
  | getDataGet p e =>
    obtain ⟨v, h⟩ | ⟨found, h⟩ := clientStep_getDataGet hstep <;> cases h
  | _ => simp [clientStep] at hstep

/-- What a client has in hand that is about to leave `Subscribe`: the status was `DONE` for this
request, and the result is what the sink has read for it. -/
structure Subscribed (D : Deployment) (k : Key) (h : List Observation) (q : Parcel) (b : Bool)
    (e : Bytes) : Prop where
  done : DoneIn k (sinceRequest k h)
  result : b = true
  data : ∃ d bytes, lastRequest k h = some (.subscribe q d) ∧
    fetched k (sinceRequest k h) = [bytes] ∧ e = blit d (charStruct D.charStructSize bytes)

/-- `Subscribe` comes to the copy and to the erase only with the completion of its own request. -/
theorem subscribed_of_client (one : OneByOne D files c k acts)
    (consumed : CompletionsConsumed D files k acts) (hrun : run D files acts = some s) :
    (∀ c' q d, s.client c' = .subscribeGet q d → q.key = k →
      DoneIn k (sinceRequest k (history D files acts))) ∧
    ∀ c' q b e, s.client c' = .subscribeErase q b e → q.key = k →
      Subscribed D k (history D files acts) q b e := by
  refine run_invariant_under
    (fun acts => OneByOne D files c k acts ∧ CompletionsConsumed D files k acts)
    (fun acts s => (∀ c' q d, s.client c' = .subscribeGet q d → q.key = k →
        DoneIn k (sinceRequest k (history D files acts))) ∧
      ∀ c' q b e, s.client c' = .subscribeErase q b e → q.key = k →
        Subscribed D k (history D files acts) q b e)
    (fun _ _ ok => ⟨ok.1.of_append, ok.2.of_append⟩)
    ⟨fun c' q d pc => by simp [Sys.init] at pc, fun c' q b e pc => by simp [Sys.init] at pc⟩
    ?_ hrun ⟨one, consumed⟩
  rintro acts a s s' m hrun hstep ⟨one, consumed⟩ ⟨get, erase⟩ h
  have hrun' : run D files (acts ++ [a]) = some s' := (exec_snoc_eq_some _).2 ⟨s, hrun, hstep⟩
  -- a client that stays inside `Subscribe` makes no request, so the last one stays the last
  have goesOn {c' : ℕ} (before : (s.client c').Subscribing k) :
      sinceRequest k (history D files (acts ++ [a])) =
          sinceRequest k (history D files acts) ++ observe D s a ∧
        lastRequest k (history D files (acts ++ [a])) = lastRequest k (history D files acts) := by
    obtain rfl := one.of_append.eq_of_subscribing hrun before
    rcases cycle_cases k hrun hstep with ⟨c'', r, rfl, requests, -⟩ | ⟨-, since, last⟩
    · obtain rfl := one.client c'' r (by simp) (Call.touches_of_requests requests)
      exact (h.not_call_of_serves before.not_free).elim
    · exact ⟨since, last⟩
  constructor
  · intro c' q d pc hk
    rcases step_client hstep c' with same | ⟨r, -, -, hpc⟩ | ⟨sh, -, hpc⟩ | ⟨-, hpc⟩
    · rw [same] at pc
      have subscribing : (s.client c').Subscribing k := ⟨q, d, hk, by rw [pc]; exact .subscribeGet⟩
      rw [(goesOn subscribing).1]
      exact (get c' q d pc hk).append
    · rw [pc] at hpc
      cases r with
      | waitAll l => cases l <;> simp [clientStart, waitAllNext] at hpc
      | _ => simp [clientStart] at hpc
    · rw [pc] at hpc
      obtain ⟨result, waited⟩ := subscribeGet_of_clientStep hpc
      have subscribing : (s.client c').Subscribing k :=
        ⟨q, d, hk, by rw [waited]; exact .subscribeWaited⟩
      rw [(goesOn subscribing).1]
      exact (doneIn_of_waitErase one.of_append consumed.of_append hrun waited hk).append
    · cases hc : s.client c' <;> simp [hc, clientFail, pc] at hpc
  · intro c' q b e pc hk
    rcases step_client hstep c' with same | ⟨r, -, -, hpc⟩ | ⟨sh, ha, hpc⟩ | ⟨-, hpc⟩
    · rw [same] at pc
      obtain ⟨done, result, d, bytes, last, read, copied⟩ := erase c' q b e pc hk
      have subscribing : (s.client c').Subscribing k :=
        ⟨q, d, hk, by rw [pc]; exact .subscribeErase⟩
      obtain ⟨since, last'⟩ := goesOn subscribing
      have done' := since ▸ done.append
      rw [← last'] at last
      obtain ⟨-, bytes', read', -⟩ := fetched_of_done one.serial hrun' last rfl done'
      refine ⟨done', result, d, bytes, last, ?_, copied⟩
      rw [since, fetched_append, read] at read' ⊢
      have nothing : fetched k (observe D s a) = [] := (List.cons.inj read').2
      rw [nothing, List.append_nil]
    · rw [pc] at hpc
      cases r with
      | waitAll l => cases l <;> simp [clientStart, waitAllNext] at hpc
      | _ => simp [clientStart] at hpc
    · rw [pc] at hpc
      obtain ⟨d, copy, result, copied⟩ := subscribeErase_of_clientStep hpc
      have subscribing : (s.client c').Subscribing k :=
        ⟨q, d, hk, by rw [copy]; exact .subscribeGet⟩
      obtain ⟨since, last'⟩ := goesOn subscribing
      have silent : observe D s a = [] := by simp [ha, observe, ClientPC.observe, copy]
      rw [silent, List.append_nil] at since
      have done := get c' q d copy hk
      obtain ⟨p, d', -, last, serves, untaken⟩ :=
        lastRequest_of_subscribing one.of_append hrun subscribing
      rw [copy] at serves
      cases serves
      obtain ⟨-, bytes, read, entry⟩ :=
        fetched_of_done one.serial.of_append hrun last rfl done
      have stored : s.warehouse q.key = some bytes := hk ▸ entry.resolve_right untaken
      refine ⟨since ▸ done, ?_, d, bytes, last'.trans last, since ▸ read, ?_⟩
      · simp [result, stored]
      · simp [copied, Shared.getData, stored]
    · cases hc : s.client c' <;> simp [hc, clientFail, pc] at hpc

/-- A completion belongs to its own request.  In a run in which one client makes its requests on a
key one after the other and no read is requested over an old completion, a `Wait` that is about to
return has found the completion of the last request, and a `Subscribe` that is about to return has
the bytes that were read for it. -/
theorem completion_of_last_request (one : OneByOne D files c k acts)
    (consumed : CompletionsConsumed D files k acts) (hrun : run D files acts = some s) :
    (∀ c' q result after, s.client c' = .waitErase q result after → q.key = k →
      DoneIn k (sinceRequest k (history D files acts))) ∧
    ∀ c' q b e, s.client c' = .subscribeErase q b e → q.key = k →
      Subscribed D k (history D files acts) q b e :=
  ⟨fun _ _ _ _ pc hk => doneIn_of_waitErase one consumed hrun pc hk,
    (subscribed_of_client one consumed hrun).2⟩

/-- A read that is waited for, and then a `Subscribe` of the same parcel that is about to return. -/
theorem completion_of_last_request_subscribe :
    let p : Parcel := ⟨"f", 0, 1, 0, 0, .subscribe⟩
    let work : List Action := List.flatten
      [[.client 0], List.replicate 5 (.readSource 0), [.deliverRead 0 0],
        List.replicate 3 (.readSink 0)]
    let first : List Action := [.call 0 (.asyncSubscribe p)] ++
      (work ++ [.call 0 (.wait p), .client 0, .client 0])
    let acts := first ++ [.call 0 (.subscribe p [0])] ++ (work ++ [.client 0, .client 0, .client 0])
    ∃ s, run (.single .rhea) (fun _ => some [97]) acts = some s ∧
      Subscribed (.single .rhea) p.key (history (.single .rhea) (fun _ => some [97]) acts) p true
        [97] := by
  intro p work first acts
  have seen : (run (.single .rhea) (fun _ => some [97]) first).map (·.parselState p.key) =
      some none := by decide +kernel
  obtain ⟨t, hfirst, erased⟩ := Option.map_eq_some_iff.1 seen
  have hrun := (Option.some_get (x := run (.single .rhea) (fun _ => some [97]) acts)
    (by decide +kernel)).symm
  have serial : Serial (.single .rhea) (fun _ => some [97]) p.key first :=
    (serial_nil.request rfl (quiet_init _ _)).append (by decide)
  have consumed : CompletionsConsumed (.single .rhea) (fun _ => some [97]) p.key first :=
    (completionsConsumed_nil.request rfl (by simp [Sys.init])).append (by decide)
  have quiet := (fetched_of_done serial hfirst (r := .asyncSubscribe p) (q := p)
    (by decide +kernel) rfl ⟨p, rfl, by decide +kernel⟩).1
  refine ⟨_, hrun, (completion_of_last_request (c := 0)
    (oneByOne_of_all ((serial.request hfirst quiet).append (by decide)) (by decide))
    ((consumed.request hfirst (by simp [erased])).append (by decide)) hrun).2 0 p true [97]
    (by decide +kernel) rfl⟩

/-- A publish is written and not waited for; the `Wait` inside a `Subscribe` with its key takes its
`DONE` and returns at once, without data, before anything has been read. -/
theorem not_completion_of_last_request :
    let p : Parcel := ⟨"f", 0, 1, 0, 0, .publish⟩
    let first : List Action := List.flatten
      [[.call 0 (.publish p [97]), .client 0, .client 0, .client 0],
        List.replicate 8 (.writeSource 0), [.deliverWrite 0 0], List.replicate 4 (.writeSink 0)]
    let acts := first ++ [.call 0 (.subscribe p [0])] ++
      ([.client 0, .client 0, .client 0, .client 0] : List Action)
    OneByOne (.single .rhea) (fun _ => none) 0 p.key acts ∧
      lastRequest p.key (history (.single .rhea) (fun _ => none) acts) =
        some (.subscribe p [0]) ∧
      ¬ DoneIn p.key (sinceRequest p.key (history (.single .rhea) (fun _ => none) acts)) ∧
      ∃ s, run (.single .rhea) (fun _ => none) acts = some s ∧
        s.client 0 = .subscribeErase p false [0] ∧
        .waited p ⟨.done, 0⟩ ∈ sinceRequest p.key (history (.single .rhea) (fun _ => none) acts) := by
  intro p first acts
  have hfirst := (Option.some_get (x := run (.single .rhea) (fun _ => none) first)
    (by decide +kernel)).symm
  have serial : Serial (.single .rhea) (fun _ => none) p.key first :=
    (serial_nil.request rfl (quiet_init _ _)).append (by decide)
  have only : PublishOnly p [97] first := .of_mem (c := 0) (by decide) (by decide)
  have quiet := only.quiet_of_done (fun _ => rfl) hfirst (by decide +kernel)
  have since : sinceRequest p.key (history (.single .rhea) (fun _ => none) acts) =
      [.waited p ⟨.done, 0⟩] := by decide +kernel
  have hrun := (Option.some_get (x := run (.single .rhea) (fun _ => none) acts)
    (by decide +kernel)).symm
  refine ⟨oneByOne_of_all ((serial.request hfirst quiet).append (by decide)) (by decide),
    by decide +kernel, ?_, _, hrun, by decide +kernel, by simp [since]⟩
  rw [since]
  rintro ⟨q, -, ho⟩
  simp at ho

end Rhea
