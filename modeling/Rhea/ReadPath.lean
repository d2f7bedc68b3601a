import Rhea.Completion

/-!
# Reading a parcel with a fresh key

A key that is read once, by `Subscribe` or by `AsyncSubscribe`, `Wait` and `GetSubscribedData` of one
client, goes through one request only (`ReadOnce`).  Then the `Wait` does not return before the bytes
are in the warehouse, they stay there until the call takes them, and afterwards no store has an entry
for the key (`read_path_exact`).
-/

namespace Rhea

open Transition Custody ByteFile

variable {D : Deployment} {files : Files} {acts : List Action} {s s' : Sys} {a : Action}
  {m : Option Handover} {k : Key} {p q : Parcel} {r : Call} {c c' : ℕ} {d e : Bytes} {b : Bool}

/-! ## The calls on a key -/

/-- The calls that work on the data of key `k` or wait for it, each with its client, in order. -/
def callsOn (k : Key) (acts : List Action) : List (ℕ × Call) :=
  acts.filterMap fun a =>
    match a with
    | .call c r => if r.touches k then some (c, r) else none
    | _ => none

theorem mem_callsOn : (c, r) ∈ callsOn k acts ↔ .call c r ∈ acts ∧ r.touches k = true := by
  simp only [callsOn, List.mem_filterMap]
  constructor
  · rintro ⟨a, ha, h⟩
    split at h
    · split_ifs at h with touches
      cases h
      exact ⟨ha, touches⟩
    · simp at h
  · rintro ⟨ha, touches⟩
    exact ⟨_, ha, if_pos touches⟩

/-- Parcel `p` is read once in the run, by client `c`, and nobody else touches its key. -/
def ReadOnce (c : ℕ) (p : Parcel) (d : Bytes) (acts : List Action) : Prop :=
  callsOn p.key acts <+: [(c, .subscribe p d)] ∨
    callsOn p.key acts <+: [(c, .asyncSubscribe p), (c, .wait p), (c, .getSubscribedData p d)]

instance : Decidable (ReadOnce c p d acts) := inferInstanceAs (Decidable (_ ∨ _))

/-- Whether a call takes the data of key `k`. -/
def Call.takes (k : Key) : Call → Bool
  | .subscribe p _ | .getSubscribedData p _ => p.key = k
  | _ => false

theorem Call.touches_of_takes (h : r.takes k = true) : r.touches k = true := by
  cases r <;> simp_all [Call.takes, Call.touches, Call.uses]

namespace ReadOnce

theorem of_prefix {pre : List Action} (once : ReadOnce c p d acts) (hpre : pre <+: acts) :
    ReadOnce c p d pre := by
  have shorter : callsOn p.key pre <+: callsOn p.key acts := hpre.filterMap _
  exact once.imp shorter.trans shorter.trans

theorem of_append (once : ReadOnce c p d (acts ++ [a])) : ReadOnce c p d acts :=
  once.of_prefix (List.prefix_append ..)

theorem cases (once : ReadOnce c p d acts) (hr : .call c' r ∈ acts)
    (touches : r.touches p.key = true) : c' = c ∧
      (r = .subscribe p d ∨ r = .asyncSubscribe p ∨ r = .wait p ∨ r = .getSubscribedData p d) := by
  have mem := mem_callsOn.2 ⟨hr, touches⟩
  rcases once with once | once
  all_goals
    have := once.subset mem
    simp only [List.mem_cons, Prod.mk.injEq, List.not_mem_nil, or_false] at this
    grind

/-- Which calls on the key come before which. -/
theorem cases_append (once : ReadOnce c p d (acts ++ [.call c' r]))
    (touches : r.touches p.key = true) :
    callsOn p.key acts = [] ∨
      callsOn p.key acts = [(c, .asyncSubscribe p)] ∧ r = .wait p ∨
      callsOn p.key acts = [(c, .asyncSubscribe p), (c, .wait p)] ∧ r = .getSubscribedData p d := by
  have snoc : callsOn p.key (acts ++ [.call c' r]) = callsOn p.key acts ++ [(c', r)] := by
    simp [callsOn, touches]
  unfold ReadOnce at once
  rw [snoc] at once
  rcases h : callsOn p.key acts with - | ⟨x, - | ⟨y, - | ⟨z, l⟩⟩⟩
  · exact .inl rfl
  · rw [h] at once
    simp only [List.cons_append, List.nil_append, List.cons_prefix_cons, List.prefix_nil,
      reduceCtorEq, and_false, false_or, Prod.mk.injEq] at once
    exact .inr (.inl ⟨by rw [once.1], once.2.1.2⟩)
  · rw [h] at once
    simp only [List.cons_append, List.nil_append, List.cons_prefix_cons, List.prefix_nil,
      reduceCtorEq, and_false, false_or, Prod.mk.injEq] at once
    exact .inr (.inr ⟨by rw [once.1, once.2.1], once.2.2.1.2⟩)
  · rw [h] at once
    simp at once

theorem first_of_requests (once : ReadOnce c p d (acts ++ [.call c' r]))
    (requests : r.requests p.key = true) : callsOn p.key acts = [] := by
  rcases once.cases_append (Call.touches_of_requests requests) with first | ⟨-, rfl⟩ | ⟨-, rfl⟩
  · exact first
  · simp [Call.requests, Call.brings] at requests
  · simp [Call.requests, Call.brings] at requests

theorem not_takes (once : ReadOnce c p d (acts ++ [.call c' r])) (touches : r.touches p.key = true)
    {c'' : ℕ} {r' : Call} (hr : .call c'' r' ∈ acts) : r'.takes p.key = false := by
  by_contra takes
  have mem := mem_callsOn.2 ⟨hr, Call.touches_of_takes (by simpa using takes)⟩
  rcases once.cases_append touches with calls | ⟨calls, -⟩ | ⟨calls, -⟩ <;> rw [calls] at mem
  · simp at mem
  · cases List.mem_singleton.1 mem
    simp [Call.takes] at takes
  · simp only [List.mem_cons, Prod.mk.injEq, List.not_mem_nil, or_false] at mem
    rcases mem with ⟨-, rfl⟩ | ⟨-, rfl⟩ <;> simp [Call.takes] at takes

theorem unused_of_requests (once : ReadOnce c p d (acts ++ [.call c' r]))
    (requests : r.requests p.key = true) : ¬ Used p.key acts := by
  rintro ⟨c'', r', hr, uses⟩
  have mem := mem_callsOn.2 ⟨hr, show r'.touches p.key = true by simp [Call.touches, uses]⟩
  simp [once.first_of_requests requests] at mem

theorem serial (once : ReadOnce c p d acts) : Serial D files p.key acts := by
  intro pre c' r post t m hacts hrun hm hk
  have once' : ReadOnce c p d (pre ++ [.call c' r]) := once.of_prefix ⟨post, by simp [hacts]⟩
  exact quiet_of_unused hrun (once'.unused_of_requests (Call.requests_of_handover hm hk))

theorem not_publishing (once : ReadOnce c p d acts) (hrun : run D files acts = some s) :
    ¬ (s.client c').Publishing p.key := by
  intro publishing
  obtain ⟨r, hr, hs⟩ := (served hrun c').resolve_left (by simp [publishing.not_free])
  obtain ⟨q, hq, pc | ⟨t, pc⟩ | ⟨e, pc⟩⟩ := publishing
  all_goals
    rw [pc] at hs
    cases hs
    simpa using once.cases hr (by simp [Call.touches, Call.uses, hq])

theorem oneByOne (once : ReadOnce c p d acts) : OneByOne D files c p.key acts where
  client _ _ hr touches := (once.cases hr touches).1
  serial := once.serial
  stored _ _ _ _ hacts hrun := (once.of_prefix ⟨_, hacts.symm⟩).not_publishing hrun

theorem completionsConsumed (once : ReadOnce c p d acts) :
    CompletionsConsumed D files p.key acts := by
  intro pre c' r post t q v hacts hrun brings hk hv
  have once' : ReadOnce c p d (pre ++ [.call c' r]) := once.of_prefix ⟨post, by simp [hacts]⟩
  have unused := once'.unused_of_requests (by simp [Call.requests, brings, hk])
  simp [parselState_of_unused hrun unused] at hv

end ReadOnce

/-! ## The calls that have returned -/

theorem waited_of_wait (hrun : run D files acts = some s) (called : .call c (.wait q) ∈ acts) :
    Serves (.wait q) (s.client c) ∨ ∃ v, .waited q v ∈ history D files acts := by
  refine run_invariant (fun acts s => .call c (.wait q) ∈ acts →
    Serves (.wait q) (s.client c) ∨ ∃ v, .waited q v ∈ history D files acts)
    (fun h => by simp at h) ?_ hrun called
  intro acts a s s' m hrun hstep inv h called
  rw [history_snoc hrun hstep]
  rcases List.mem_append.1 called with called | new
  · rcases inv called with serves | ⟨v, ho⟩
    · rcases step_client hstep c with same | ⟨r, -, free, -⟩ | ⟨sh, rfl, hpc⟩ | ⟨-, hpc⟩
      · exact .inl (same ▸ serves)
      · simp [serves.free] at free
      · generalize pc : s.client c = before at serves hpc
        cases serves with
        | wait =>
          refine .inl ((Serves.wait.clientStep hpc).resolve_left ?_)
          simp only [clientStep] at hpc
          split at hpc <;> try split_ifs at hpc
          all_goals
            obtain ⟨-, next⟩ := Prod.mk.inj (Option.some.inj hpc)
            simp [← next, ClientPC.free]
        | @waited _ v => exact .inr ⟨v, by simp [observe, pc, ClientPC.observe]⟩
      · cases serves' : s.client c <;> rw [serves'] at serves hpc <;> cases serves <;>
          simp [clientFail] at hpc
    · exact .inr ⟨v, List.mem_append_left _ ho⟩
  · obtain rfl := List.mem_singleton.1 new
    exact .inl (h.started ▸ .wait)

theorem waited_of_subscribe (hrun : run D files acts = some s)
    (past : s.client c = .subscribeGet q d ∨ s.client c = .subscribeErase q b d) :
    ∃ v, .waited q v ∈ history D files acts := by
  refine run_invariant (fun acts s => ∀ d b,
    s.client c = .subscribeGet q d ∨ s.client c = .subscribeErase q b d →
      ∃ v, .waited q v ∈ history D files acts)
    (fun d b past => by simp [Sys.init] at past) ?_ hrun d b past
  intro acts a s s' m hrun hstep inv h d b past
  rw [history_snoc hrun hstep]
  have keep : (∃ v, .waited q v ∈ history D files acts) →
      ∃ v, .waited q v ∈ history D files acts ++ observe D s a :=
    Exists.imp fun _ => List.mem_append_left _
  rcases step_client hstep c with same | ⟨r, -, -, hpc⟩ | ⟨sh, rfl, hpc⟩ | ⟨-, hpc⟩
  · exact keep (inv d b (same ▸ past))
  · rw [hpc] at past
    cases r with
    | waitAll l => cases l <;> simp [clientStart, waitAllNext] at past
    | _ => simp [clientStart] at past
  · rcases past with pc | pc <;> rw [pc] at hpc
    · obtain ⟨v, waited⟩ := subscribeGet_of_clientStep hpc
      exact ⟨v, by simp [observe, waited, ClientPC.observe]⟩
    · obtain ⟨d', copy, -⟩ := subscribeErase_of_clientStep hpc
      exact keep (inv d' b (.inl copy))
  · cases hc : s.client c <;> simp [hc, clientFail] at hpc <;> simp [← hpc] at past

theorem step_subscribed (hstep : step D s a = some s') (ho : .subscribed q b e ∈ observe D s a) :
    ∃ c, (s.client c).free = false ∧ (s'.client c).free = true ∧
      ∀ r, Serves r (s.client c) → r.takes q.key = true := by
  obtain ⟨m, h⟩ := step_sound hstep
  generalize hst : Observation.subscribed q b e = o at ho
  cases h.observed ho with
  | @subscribed c _ _ _ pc | @gotData c _ _ pc =>
    cases hst
    simp only [step, pc, clientStep, Option.map_some, Option.some.injEq] at hstep
    refine ⟨c, by rw [pc]; rfl, by simp [← hstep, ClientPC.free], fun r hs => ?_⟩
    rw [pc] at hs
    cases hs
    simp [Call.takes]
  | @missed c _ _ pc miss =>
    cases hst
    simp only [step, pc, clientStep, miss, Option.map_some, Option.some.injEq] at hstep
    refine ⟨c, by rw [pc]; rfl, by simp [← hstep, ClientPC.free], fun r hs => ?_⟩
    rw [pc] at hs
    cases hs
    simp [Call.takes]
  | _ => simp at hst

theorem takes_of_taken (hrun : run D files acts = some s) (taken : TakenIn k (history D files acts)) :
    ∃ c r, .call c r ∈ acts ∧ r.takes k = true := by
  refine run_invariant (fun acts _ => TakenIn k (history D files acts) →
    ∃ c r, .call c r ∈ acts ∧ r.takes k = true)
    (by rintro ⟨_, _, _, _, ho⟩; simp at ho) ?_ hrun taken
  intro acts a s s' m hrun hstep inv _ taken
  rw [history_snoc hrun hstep, takenIn_append] at taken
  rcases taken with taken | ⟨q, b, e, rfl, ho⟩
  · obtain ⟨c, r, hr, takes⟩ := inv taken
    exact ⟨c, r, List.mem_append_left _ hr, takes⟩
  · obtain ⟨c, busy, -, takes⟩ := step_subscribed hstep ho
    obtain ⟨r, hr, hs⟩ := (served hrun c).resolve_left (by simp [busy])
    exact ⟨c, r, List.mem_append_left _ hr, takes r hs⟩

namespace ReadOnce

/-- Once the data has been taken, no client is in a call that touches the key. -/
theorem untouched_of_taken (once : ReadOnce c p d acts) (hrun : run D files acts = some s)
    (taken : TakenIn p.key (history D files acts)) (c' : ℕ) :
    (s.client c').free = true ∨ ∃ r, Serves r (s.client c') ∧ r.touches p.key = false := by
  refine run_invariant_under (ReadOnce c p d)
    (fun acts s => TakenIn p.key (history D files acts) → ∀ c', (s.client c').free = true ∨
      ∃ r, Serves r (s.client c') ∧ r.touches p.key = false)
    (fun _ _ => of_append) (by rintro ⟨_, _, _, _, ho⟩; simp at ho) ?_ hrun once taken c'
  intro acts a s s' m hrun hstep once inv h taken c'
  rw [history_snoc hrun hstep, takenIn_append] at taken
  rcases taken with taken | ⟨q, b, e, hk, ho⟩
  · rcases step_client hstep c' with same | ⟨r, rfl, -, hpc⟩ | ⟨sh, -, hpc⟩ | ⟨-, hpc⟩
    · exact same ▸ inv taken c'
    · rw [hpc]
      refine (serves_clientStart r).imp_right fun hs => ⟨r, hs, ?_⟩
      obtain ⟨c'', r', hr', takes⟩ := takes_of_taken hrun taken
      by_contra touches
      simp [once.not_takes (by simpa using touches) hr'] at takes
    · rcases inv taken c' with free | ⟨r, hs, no⟩
      · cases hidle : s.client c' <;> rw [hidle] at free hpc <;>
          simp [ClientPC.free, clientStep] at free hpc
      · exact (hs.clientStep hpc).imp_right fun hs => ⟨r, hs, no⟩
    · rcases inv taken c' with free | ⟨r, hs, no⟩
      · cases hidle : s.client c' <;> rw [hidle] at free hpc <;>
          simp [ClientPC.free, clientFail] at free hpc
      · exact (hs.clientFail hpc).imp_right fun hs => ⟨r, hs, no⟩
  · -- the client that takes the data is the only one on the key, and it leaves its call
    have hrun' : run D files (acts ++ [a]) = some s' := (exec_snoc_eq_some _).2 ⟨s, hrun, hstep⟩
    obtain ⟨c₁, busy, free, takes⟩ := step_subscribed hstep ho
    obtain ⟨r₁, hr₁, hs₁⟩ := (served hrun c₁).resolve_left (by simp [busy])
    have same : c₁ = c := (once.of_append.cases hr₁
      (Call.touches_of_takes (hk ▸ takes r₁ hs₁))).1
    by_cases hc : c' = c
    · exact .inl (hc ▸ same ▸ free)
    · refine (served hrun' c').imp_right ?_
      rintro ⟨r, hr, hs⟩
      refine ⟨r, hs, ?_⟩
      by_contra touches
      exact hc (once.cases hr (by simpa using touches)).1

theorem not_taken (once : ReadOnce c p d acts) (hrun : run D files acts = some s)
    (busy : (s.client c').free = false)
    (touches : ∀ r, Serves r (s.client c') → r.touches p.key = true) :
    ¬ TakenIn p.key (history D files acts) := by
  intro taken
  rcases once.untouched_of_taken hrun taken c' with free | ⟨r, hs, no⟩
  · simp [busy] at free
  · simp [touches r hs] at no

/-! ## The one request -/

theorem history_eq (once : ReadOnce c p d acts) (hrun : run D files acts = some s) :
    ∃ before, history D files acts = before ++ sinceRequest p.key (history D files acts) ∧
      ∀ o ∈ before, o.key ≠ some p.key := by
  refine run_invariant_under (ReadOnce c p d)
    (fun acts _ => ∃ before,
      history D files acts = before ++ sinceRequest p.key (history D files acts) ∧
        ∀ o ∈ before, o.key ≠ some p.key)
    (fun _ _ => of_append) ⟨[], rfl, by simp⟩ ?_ hrun once
  rintro acts a s s' m hrun hstep once ⟨before, hist, other⟩ -
  rcases cycle_cases p.key hrun hstep with ⟨c', r, rfl, requests, since, -⟩ | ⟨-, since, -⟩
  · rw [since, history_snoc hrun hstep]
    refine ⟨_, (List.append_nil _).symm, fun o ho hk => ?_⟩
    rcases List.mem_append.1 ho with ho | ho
    · exact once.unused_of_requests requests (used_of_history hrun ho hk)
    · obtain rfl : o = _ := by simpa [observe] using ho
      simp [Observation.key] at hk
  · refine ⟨before, ?_, other⟩
    rw [since, history_snoc hrun hstep, ← List.append_assoc, ← hist]

theorem doneIn_since (once : ReadOnce c p d acts) (hrun : run D files acts = some s) :
    DoneIn p.key (sinceRequest p.key (history D files acts)) ↔
      DoneIn p.key (history D files acts) := by
  obtain ⟨before, hist, other⟩ := once.history_eq hrun
  nth_rewrite 2 [hist]
  rw [doneIn_append, or_iff_right]
  rintro ⟨q, hq, ho⟩
  exact other _ ho (by simp [Observation.key, hq])

theorem takenIn_since (once : ReadOnce c p d acts) (hrun : run D files acts = some s) :
    TakenIn p.key (sinceRequest p.key (history D files acts)) ↔
      TakenIn p.key (history D files acts) := by
  obtain ⟨before, hist, other⟩ := once.history_eq hrun
  nth_rewrite 2 [hist]
  rw [takenIn_append, or_iff_right]
  rintro ⟨q, b, e, hq, ho⟩
  exact other _ ho (by simp [Observation.key, hq])

theorem fetched_since (once : ReadOnce c p d acts) (hrun : run D files acts = some s) :
    fetched p.key (sinceRequest p.key (history D files acts)) =
      fetched p.key (history D files acts) := by
  obtain ⟨before, hist, other⟩ := once.history_eq hrun
  have none : fetched p.key before = [] := by
    refine List.filterMap_eq_nil_iff.2 fun o ho => ?_
    have := other o ho
    cases o with
    | fetched q b => simpa [Observation.key] using this
    | _ => rfl
  nth_rewrite 2 [hist]
  rw [fetched_append, none, List.nil_append]

theorem lastRequest_of_used (once : ReadOnce c p d acts) (hrun : run D files acts = some s)
    (used : Used p.key acts) :
    ∃ r, lastRequest p.key (history D files acts) = some r ∧ r.brings = some (p, false) := by
  have first : ∃ r, .call c r ∈ acts ∧ r.requests p.key = true := by
    obtain ⟨c', r, hr, uses⟩ := used
    have mem := mem_callsOn.2 ⟨hr, show r.touches p.key = true by simp [Call.touches, uses]⟩
    obtain ⟨x, l, hl⟩ := List.exists_cons_of_ne_nil (List.ne_nil_of_mem mem)
    have head : x ∈ callsOn p.key acts := hl ▸ List.mem_cons_self ..
    rcases once with once | once
    all_goals
      rw [hl, List.cons_prefix_cons] at once
      rw [once.1] at head
      exact ⟨_, (mem_callsOn.1 head).1, by simp [Call.requests, Call.brings]⟩
  obtain ⟨r, hr, requests⟩ := first
  obtain ⟨c', r', hr', requests', last⟩ := lastRequest_of_call hrun hr requests
  refine ⟨r', last, ?_⟩
  rcases (once.cases hr' (Call.touches_of_requests requests')).2 with rfl | rfl | rfl | rfl <;>
    simp_all [Call.requests, Call.brings]

/-- What is known once a worker has recorded `DONE`. -/
theorem stored_of_done (once : ReadOnce c p d acts) (hrun : run D files acts = some s)
    (done : DoneIn p.key (history D files acts)) :
    Quiet Parcel.key s.hold p.key ∧ ∃ b, fetched p.key (history D files acts) = [b] ∧
      (s.warehouse p.key = some b ∨ TakenIn p.key (history D files acts)) := by
  have used : Used p.key acts := by
    obtain ⟨q, hq, ho⟩ := done
    exact used_of_history hrun ho (by simp [Observation.key, hq])
  obtain ⟨r, last, brings⟩ := once.lastRequest_of_used hrun used
  rw [← once.fetched_since hrun, ← once.takenIn_since hrun]
  exact fetched_of_done once.serial hrun last brings ((once.doneIn_since hrun).2 done)

theorem eq_of_fetched (once : ReadOnce c p d acts) (hrun : run D files acts = some s)
    (ho : .fetched q e ∈ history D files acts) (hk : q.key = p.key) :
    q = p ∧ e.length = p.dataSize := by
  refine run_invariant_under (ReadOnce c p d)
    (fun acts _ => ∀ q e, .fetched q e ∈ history D files acts → q.key = p.key →
      q = p ∧ e.length = p.dataSize) (fun _ _ => of_append) (by simp) ?_ hrun once q e ho hk
  intro acts a s s' m hrun hstep once inv h q e ho hk
  rw [history_snoc hrun hstep, List.mem_append] at ho
  rcases ho with ho | ho
  · exact inv q e ho hk
  · cases h.observed ho
    obtain ⟨c', r, hr, brings⟩ := requested_of_mem hrun h.mem_src
    have eq : q = p := by
      have touches : r.touches p.key = true := Call.touches_of_requests
        (by simp [Call.requests, brings, hk])
      rcases (once.of_append.cases hr touches).2 with rfl | rfl | rfl | rfl <;> cases brings <;> rfl
    exact ⟨eq, eq ▸ readSinkData_length ..⟩

theorem fetched_mem (once : ReadOnce c p d acts) (hrun : run D files acts = some s)
    (he : e ∈ fetched p.key (history D files acts)) : .fetched p e ∈ history D files acts := by
  obtain ⟨o, ho, h⟩ := List.mem_filterMap.1 he
  split at h
  · split_ifs at h with hk
    obtain rfl := Option.some.inj h
    exact (once.eq_of_fetched hrun ho hk).1 ▸ ho
  · simp at h

/-- Once a `Wait` has returned, nothing is under way and no status is recorded. -/
theorem quiet_of_waited (once : ReadOnce c p d acts) (hrun : run D files acts = some s)
    {v : ParcelState} (ho : .waited q v ∈ history D files acts) (hk : q.key = p.key) :
    Quiet Parcel.key s.hold p.key ∧ s.parselState p.key = none := by
  obtain ⟨q', hq', done⟩ := recorded_of_waited hrun ho
  have quiet := (once.stored_of_done hrun ⟨q', hq'.trans hk, done⟩).1
  refine ⟨quiet, ?_⟩
  refine run_invariant_under (ReadOnce c p d)
    (fun acts s => ∀ q v, .waited q v ∈ history D files acts → q.key = p.key →
      s.parselState p.key = none) (fun _ _ => of_append) (by simp) ?_ hrun once q v ho hk
  intro acts a s s' m hrun hstep once inv h q v ho hk
  rw [history_snoc hrun hstep, List.mem_append] at ho
  rcases ho with ho | ho
  · obtain ⟨q', hq', done⟩ := recorded_of_waited hrun ho
    have quiet := (once.of_append.stored_of_done hrun ⟨q', hq'.trans hk, done⟩).1
    rcases h.parselState_cases p.key with same | change
    · exact same.trans (inv q v ho hk)
    · generalize s'.parselState p.key = w at change
      cases change with
      | publishState pc key =>
        exact absurd ⟨_, key, .inr (.inl ⟨_, pc⟩)⟩ (once.of_append.not_publishing hrun)
      | waitErase => rfl
      | _ pc key => exact absurd key (quiet _ _ h.mem_src)
  · cases h.observed ho with
    | waited pc =>
      simp only [step, pc, clientStep, Option.map_some, Option.some.injEq] at hstep
      simp [← hstep, ← hk]

/-! ## What the calls return -/

theorem wait_of_getSubscribedData (once : ReadOnce c p d acts)
    (hr : .call c' (.getSubscribedData p d) ∈ acts) : .call c (.wait p) ∈ acts := by
  have mem := mem_callsOn.2 ⟨hr, show Call.touches p.key (.getSubscribedData p d) = true by
    simp [Call.touches, Call.uses]⟩
  refine (mem_callsOn.1 (?_ : (c, .wait p) ∈ callsOn p.key acts)).1
  rcases once with once | once
  · simpa using once.subset mem
  · -- the call is the third of three, so all three have been made
    obtain ⟨l, hl⟩ := once
    rcases h : callsOn p.key acts with - | ⟨x, - | ⟨y, l'⟩⟩
    · simp [h] at mem
    · rw [h] at hl mem
      obtain rfl : x = (c, .asyncSubscribe p) := by simpa using (List.cons.inj hl).1
      simp at mem
    · rw [h] at hl
      simp only [List.cons_append, List.cons.injEq] at hl
      simp [hl.2.1]

theorem waited_of_takes (once : ReadOnce c p d acts) (hrun : run D files acts = some s)
    (hs : (∃ b, s.client c' = .subscribeErase q b e) ∨ s.client c' = .getDataGet q e ∨
      s.client c' = .getDataErase q e) (hk : q.key = p.key) :
    q = p ∧ ∃ v, .waited p v ∈ history D files acts := by
  have busy : (s.client c').free = false := by
    rcases hs with ⟨b, pc⟩ | pc | pc <;> rw [pc] <;> rfl
  obtain ⟨r, hr, serves⟩ := (served hrun c').resolve_left (by simp [busy])
  have takes : r = .subscribe p d ∨ r = .getSubscribedData p d := by
    have touches : r.touches p.key = true := by
      rcases hs with ⟨b, pc⟩ | pc | pc <;> rw [pc] at serves <;> cases serves <;>
        simp [Call.touches, Call.uses, hk]
    rcases (once.cases hr touches).2 with rfl | rfl | rfl | rfl
    · exact .inl rfl
    · rcases hs with ⟨b, pc⟩ | pc | pc <;> rw [pc] at serves <;> cases serves
    · rcases hs with ⟨b, pc⟩ | pc | pc <;> rw [pc] at serves <;> cases serves
    · exact .inr rfl
  rcases hs with ⟨b, pc⟩ | pc | pc
  · have eq : q = p := by
      rw [pc] at serves
      rcases takes with rfl | rfl <;> cases serves
      rfl
    exact ⟨eq, waited_of_subscribe hrun (.inr (eq ▸ pc))⟩
  all_goals
    obtain rfl : r = .getSubscribedData p d := by
      refine takes.resolve_left ?_
      rintro rfl
      rw [pc] at serves
      cases serves
    have waiting := waited_of_wait hrun (once.wait_of_getSubscribedData hr)
    obtain rfl := (once.cases hr (by simp [Call.touches, Call.uses])).1
    rw [pc] at serves waiting
    refine ⟨by cases serves; rfl, waiting.resolve_left fun h => ?_⟩
    cases h

/-- The call that takes the data finds it, after its `Wait`, and leaves no data behind. -/
theorem answered (once : ReadOnce c p d acts) (hrun : run D files acts = some s)
    (ho : .subscribed q b e ∈ history D files acts) (hk : q.key = p.key) :
    q = p ∧ b = true ∧ (∃ v, .waited p v ∈ history D files acts) ∧ s.warehouse p.key = none := by
  refine run_invariant_under (ReadOnce c p d)
    (fun acts s => ∀ q b e, .subscribed q b e ∈ history D files acts → q.key = p.key →
      q = p ∧ b = true ∧ (∃ v, .waited p v ∈ history D files acts) ∧ s.warehouse p.key = none)
    (fun _ _ => of_append) (by simp) ?_ hrun once q b e ho hk
  intro acts a s s' m hrun hstep once' inv h q b e ho hk
  have once := once'.of_append
  rw [history_snoc hrun hstep] at ho ⊢
  rcases List.mem_append.1 ho with ho | ho
  · obtain ⟨eq, hb, ⟨v, waited⟩, gone⟩ := inv q b e ho hk
    refine ⟨eq, hb, ⟨v, List.mem_append_left _ waited⟩, ?_⟩
    have quiet := (once.quiet_of_waited hrun waited rfl).1
    rcases h.warehouse_cases p.key with same | change
    · exact same.trans gone
    · generalize s'.warehouse p.key = w at change
      cases change with
      | publishPut pc key | readSinkPut pc key => exact absurd key (quiet _ _ h.mem_src)
      | _ => rfl
  · generalize hst : Observation.subscribed q b e = o at ho
    cases h.observed ho with
    | subscribed pc =>
      cases hst
      obtain ⟨eq, v, waited⟩ := once.waited_of_takes hrun (.inl ⟨_, pc⟩) hk
      have found := (subscribed_of_client once.oneByOne once.completionsConsumed hrun).2 _ _ _ _ pc hk
      simp only [step, pc, clientStep, Option.map_some, Option.some.injEq] at hstep
      exact ⟨eq, found.result, ⟨v, List.mem_append_left _ waited⟩, by simp [← hstep, ← hk]⟩
    | gotData pc =>
      cases hst
      obtain ⟨eq, v, waited⟩ := once.waited_of_takes hrun (.inr (.inr pc)) hk
      simp only [step, pc, clientStep, Option.map_some, Option.some.injEq] at hstep
      exact ⟨eq, rfl, ⟨v, List.mem_append_left _ waited⟩, by simp [← hstep, ← hk]⟩
    | missed pc miss =>
      -- after the `Wait` the bytes are there
      cases hst
      obtain ⟨eq, v, waited⟩ := once.waited_of_takes hrun (.inr (.inl pc)) hk
      obtain ⟨q', hq', done⟩ := recorded_of_waited hrun waited
      obtain ⟨-, b', -, stored | taken⟩ := once.stored_of_done hrun ⟨q', hq', done⟩
      · simp [← hk, miss] at stored
      · refine absurd taken (once.not_taken hrun (by rw [pc]; rfl) fun r hs => ?_)
        rw [pc] at hs
        cases hs
        simp [Call.touches, Call.uses, hk]
    | _ => simp at hst

end ReadOnce

/-- What a sink has fetched is what the file had at the requested position when the sink stood at its
`Read`; zeros stand for bytes that the file did not have. -/
theorem contents_of_fetched (hrun : run D files acts = some s)
    (ho : .fetched p e ∈ history D files acts) :
    ∃ pre j post t, acts = pre ++ .readSink j :: post ∧ run D files pre = some t ∧
      t.readSink j = .read p ∧
      e = blit (List.replicate p.dataSize 0)
        (slice ((t.files (D.destination p)).getD []) p.position p.dataSize) := by
  obtain ⟨before, later, split⟩ := List.append_of_mem ho
  obtain ⟨pre, a, post, t, t', front, back, hacts, ht, hstep, seen, -⟩ :=
    trace_split (step D) hrun split
  obtain ⟨m, h⟩ := step_sound hstep
  have mem : .fetched p e ∈ observe D t a := by
    rw [seen]
    exact List.mem_append_right front List.mem_cons_self
  cases h.observed mem with
  | @fetched j _ pc => exact ⟨pre, j, post, t, hacts, ht, pc, readSinkData_eq D t.files p⟩

/-- The read path is exact and leaves nothing behind.  From the return of the `Wait` for `p` to the
return of the call that takes its data, the warehouse has exactly the `data_size_` bytes that a sink
has read for it, once, from file `id_` at `position_`; that call returns `true`; and from then on no
store has an entry for the key. -/
theorem read_path_exact (once : ReadOnce c p d acts) (hrun : run D files acts = some s) :
    (∀ v, .waited p v ∈ history D files acts →
      (∀ b e, .subscribed p b e ∉ history D files acts) →
      ∃ bytes, .fetched p bytes ∈ history D files acts ∧
        fetched p.key (history D files acts) = [bytes] ∧ bytes.length = p.dataSize ∧
        (∃ pre j post t, acts = pre ++ .readSink j :: post ∧ run D files pre = some t ∧
          t.readSink j = .read p ∧
          bytes = blit (List.replicate p.dataSize 0)
            (slice ((t.files (D.destination p)).getD []) p.position p.dataSize)) ∧
        s.warehouse p.key = some bytes) ∧
    ∀ b e, .subscribed p b e ∈ history D files acts →
      b = true ∧ s.warehouse p.key = none ∧ s.parselState p.key = none ∧
        ∀ server, ∀ q ∈ s.readQueue server, q.key ≠ p.key := by
  refine ⟨fun v waited open_ => ?_, fun b e ho => ?_⟩
  · obtain ⟨q, hq, done⟩ := recorded_of_waited hrun waited
    obtain ⟨-, bytes, read, entry⟩ := once.stored_of_done hrun ⟨q, hq, done⟩
    have stored : s.warehouse p.key = some bytes := by
      refine entry.resolve_right ?_
      rintro ⟨q, b, e, hk, ho⟩
      exact open_ b e ((once.answered hrun ho hk).1 ▸ ho)
    have mem := once.fetched_mem hrun (show bytes ∈ _ by simp [read])
    exact ⟨bytes, mem, read, (once.eq_of_fetched hrun mem rfl).2, contents_of_fetched hrun mem, stored⟩
  · obtain ⟨-, result, ⟨v, waited⟩, gone⟩ := once.answered hrun ho rfl
    obtain ⟨quiet, unrecorded⟩ := once.quiet_of_waited hrun waited rfl
    exact ⟨result, gone, unrecorded, fun server => quiet (.readQueue server)⟩

/-- A client that reads asynchronously while another one reads another parcel of the file. -/
theorem read_path_exact_two :
    let p : Parcel := ⟨"f", 1, 2, 0, 0, .subscribe⟩
    let q : Parcel := ⟨"f", 0, 1, 0, 1, .subscribe⟩
    let files : Files := fun _ => some [97, 98, 99]
    let early : List Action := List.flatten
      [[.call 0 (.asyncSubscribe p), .call 1 (.subscribe q [0]), .client 0, .client 1],
        List.replicate 8 (.readSource 0), [.deliverRead 1 1, .deliverRead 0 0],
        List.replicate 3 (.readSink 0), List.replicate 2 (.readSink 1),
        [.call 0 (.wait p), .client 0, .client 0]]
    let acts := early ++ [.call 0 (.getSubscribedData p [0, 0]), .client 0, .client 0, .readSink 1]
    (∃ s, run (.single .rhea) files early = some s ∧
      ∃ bytes, .fetched p bytes ∈ history (.single .rhea) files early ∧
        fetched p.key (history (.single .rhea) files early) = [bytes] ∧
        bytes.length = p.dataSize ∧
        (∃ pre j post t, early = pre ++ .readSink j :: post ∧
          run (.single .rhea) files pre = some t ∧ t.readSink j = .read p ∧
          bytes = blit (List.replicate p.dataSize 0)
            (slice ((t.files (0, "f")).getD []) p.position p.dataSize)) ∧
        s.warehouse p.key = some bytes) ∧
      ∃ s, run (.single .rhea) files acts = some s ∧ s.warehouse p.key = none := by
  intro p q files early acts
  have hearly := (Option.some_get (x := run (.single .rhea) files early)
    (by decide +kernel)).symm
  have hrun := (Option.some_get (x := run (.single .rhea) files acts) (by decide +kernel)).symm
  refine ⟨⟨_, hearly, (read_path_exact (c := 0) (d := [0, 0]) (by decide) hearly).1 ⟨.done, 0⟩
    (by decide +kernel) fun b e ho => ?_⟩, _, hrun,
    ((read_path_exact (c := 0) (d := [0, 0]) (by decide) hrun).2 true [98, 99]
      (by decide +kernel)).2.1⟩
  have untaken : (history (.single .rhea) files early).all (fun o =>
      match o with
      | .subscribed _ _ _ => false
      | _ => true) = true := by decide +kernel
  simpa using List.all_eq_true.1 untaken _ ho

end Rhea
