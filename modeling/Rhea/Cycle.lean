import Rhea.Requests

/-!
# One request after the other on a key

All requests on a key share one status cell and one entry of the warehouse.  This file follows the
last request on a key: `sinceRequest` is what has been reported since it was made.  When the requests
are serial, the parcel in the system is the one that was requested last, a read sink has read for it
once when it stores and reports `DONE`, and the bytes it has read are in the warehouse until a client
takes them (`fetched_of_done`).
-/

namespace Rhea

open Transition Custody

variable {D : Deployment} {files : Files} {acts : List Action} {s s' : Sys} {a : Action}
  {m : Option Handover} {k : Key} {p q : Parcel} {r : Call}

/-! ## Since the last request -/

/-- Whether a call requests a parcel with key `k`. -/
def Call.requests (k : Key) (r : Call) : Bool := r.brings.elim false fun b => b.1.key = k

/-- Whether a report is a request on key `k`. -/
def Observation.requests (k : Key) : Observation → Bool
  | .requested _ r => r.requests k
  | _ => false

theorem Call.requests_of_handover {c : ℕ} {m : Handover} (h : r.handover c = some m)
    (hk : m.parcel.key = k) : r.requests k = true := by
  cases r <;> cases h <;> simpa [Call.requests, Call.brings] using hk

/-- Whether an action is a request on key `k`. -/
def Action.requests (k : Key) : Action → Bool
  | .call _ r => r.requests k
  | _ => false

theorem serial_nil : Serial D files k [] := fun _ _ _ _ _ _ h => by simp at h

theorem Serial.append (serial : Serial D files k acts) {more : List Action}
    (none : ∀ a ∈ more, a.requests k = false) : Serial D files k (acts ++ more) := by
  intro pre c r post t m hacts hrun hm hk
  rcases split_append hacts with ⟨l, rfl, -⟩ | ⟨l, -, rfl⟩
  · exact serial pre c r l t m rfl hrun hm hk
  · have := none (.call c r) (by simp)
    simp [Action.requests, Call.requests_of_handover hm hk] at this

theorem Serial.request {c : ℕ} (serial : Serial D files k acts) (hrun : run D files acts = some s)
    (quiet : Quiet Parcel.key s.hold k) : Serial D files k (acts ++ [.call c r]) := by
  intro pre c' r' post t m hacts hrun' hm hk
  rcases split_append hacts with ⟨l, rfl, -⟩ | ⟨l, rfl, hl⟩
  · exact serial pre c' r' l t m rfl hrun' hm hk
  · obtain ⟨rfl, -⟩ : l = [] ∧ _ := by simpa using (List.append_eq_singleton_iff.1 hl.symm)
    rw [List.append_nil] at hrun'
    obtain rfl := Option.some.inj (hrun.symm.trans hrun')
    exact quiet

/-- The reports since the last request on key `k`. -/
def sinceRequest (k : Key) (h : List Observation) : List Observation :=
  h.foldl (fun since o => if o.requests k then [] else since ++ [o]) []

/-- The last request on key `k`. -/
def lastRequest (k : Key) (h : List Observation) : Option Call :=
  h.foldl (fun last o =>
    match o with
    | .requested _ r => if r.requests k then some r else last
    | _ => last) none

/-- The bytes that read sinks have read for key `k`. -/
def fetched (k : Key) (h : List Observation) : List Bytes :=
  h.filterMap fun o =>
    match o with
    | .fetched p b => if p.key = k then some b else none
    | _ => none

/-- A worker has recorded `DONE` for key `k`. -/
def DoneIn (k : Key) (h : List Observation) : Prop := ∃ q, q.key = k ∧ .recorded q .done ∈ h

/-- A client has taken the data of key `k`, or has found none. -/
def TakenIn (k : Key) (h : List Observation) : Prop :=
  ∃ q b e, q.key = k ∧ .subscribed q b e ∈ h

theorem DoneIn.append {h os : List Observation} (done : DoneIn k h) : DoneIn k (h ++ os) := by
  obtain ⟨q, hq, ho⟩ := done
  exact ⟨q, hq, List.mem_append_left _ ho⟩

theorem TakenIn.append {h os : List Observation} (taken : TakenIn k h) : TakenIn k (h ++ os) := by
  obtain ⟨q, b, e, hq, ho⟩ := taken
  exact ⟨q, b, e, hq, List.mem_append_left _ ho⟩

theorem doneIn_append {h os : List Observation} :
    DoneIn k (h ++ os) ↔ DoneIn k h ∨ DoneIn k os := by
  simp only [DoneIn, List.mem_append]
  grind

theorem takenIn_append {h os : List Observation} :
    TakenIn k (h ++ os) ↔ TakenIn k h ∨ TakenIn k os := by
  simp only [TakenIn, List.mem_append]
  grind

theorem fetched_append (h os : List Observation) : fetched k (h ++ os) = fetched k h ++ fetched k os :=
  List.filterMap_append

theorem sinceRequest_append {h os : List Observation} (none : ∀ o ∈ os, o.requests k = false) :
    sinceRequest k (h ++ os) = sinceRequest k h ++ os := by
  induction os using List.reverseRecOn with
  | nil => simp
  | append_singleton os o ih =>
    have ho := none o (by simp)
    rw [← List.append_assoc, sinceRequest, List.foldl_append, ← sinceRequest,
      ih fun o' h' => none o' (List.mem_append_left _ h')]
    simp [ho]

theorem lastRequest_append {h os : List Observation} (none : ∀ o ∈ os, o.requests k = false) :
    lastRequest k (h ++ os) = lastRequest k h := by
  induction os using List.reverseRecOn with
  | nil => simp
  | append_singleton os o ih =>
    have ho := none o (by simp)
    rw [← List.append_assoc, lastRequest, List.foldl_append, ← lastRequest,
      ih fun o' h' => none o' (List.mem_append_left _ h')]
    cases o with
    | requested c r => simp only [Observation.requests] at ho; simp [ho]
    | _ => rfl

/-- A step is the next request on the key, or it goes on with the last one. -/
theorem cycle_cases (k : Key) (hrun : run D files acts = some s) (hstep : step D s a = some s') :
    (∃ c r, a = .call c r ∧ r.requests k = true ∧
      sinceRequest k (history D files (acts ++ [a])) = [] ∧
      lastRequest k (history D files (acts ++ [a])) = some r) ∨
    ((∀ c r, a = .call c r → r.requests k = false) ∧
      sinceRequest k (history D files (acts ++ [a])) =
        sinceRequest k (history D files acts) ++ observe D s a ∧
      lastRequest k (history D files (acts ++ [a])) = lastRequest k (history D files acts)) := by
  rw [history_snoc hrun hstep]
  by_cases hr : ∃ c r, a = .call c r ∧ r.requests k = true
  · obtain ⟨c, r, rfl, hr⟩ := hr
    refine .inl ⟨c, r, rfl, hr, ?_, ?_⟩
    · simp [sinceRequest, observe, Observation.requests, hr]
    · simp [lastRequest, observe, hr]
  · have none : ∀ c r, a = .call c r → r.requests k = false := by
      intro c r ha
      by_contra h
      exact hr ⟨c, r, ha, by simpa using h⟩
    have quiet : ∀ o ∈ observe D s a, o.requests k = false := by
      intro o ho
      obtain ⟨m, h⟩ := step_sound hstep
      cases h.observed ho with
      | requested c r free => exact none c r rfl
      | _ => rfl
    exact .inr ⟨none, sinceRequest_append quiet, lastRequest_append quiet⟩

theorem lastRequest_of_call (hrun : run D files acts = some s) {c : ℕ} (hr : .call c r ∈ acts)
    (requests : r.requests k = true) :
    ∃ c' r', .call c' r' ∈ acts ∧ r'.requests k = true ∧
      lastRequest k (history D files acts) = some r' := by
  refine run_invariant (fun acts _ => ∀ c r, .call c r ∈ acts → r.requests k = true →
    ∃ c' r', .call c' r' ∈ acts ∧ r'.requests k = true ∧
      lastRequest k (history D files acts) = some r') (by simp) ?_ hrun c r hr requests
  intro acts a s s' m hrun hstep inv _ c r hr requests
  rcases cycle_cases k hrun hstep with ⟨c', r', rfl, requests', -, last⟩ | ⟨none, -, last⟩
  · exact ⟨c', r', by simp, requests', last⟩
  · rcases List.mem_append.1 hr with hr | new
    · obtain ⟨c', r', hr', requests', last'⟩ := inv c r hr requests
      exact ⟨c', r', List.mem_append_left _ hr', requests', last.trans last'⟩
    · simp [none c r (List.mem_singleton.1 new).symm] at requests

theorem call_of_lastRequest (hrun : run D files acts = some s)
    (last : lastRequest k (history D files acts) = some r) : ∃ c, .call c r ∈ acts := by
  refine run_invariant (fun acts _ => ∀ r, lastRequest k (history D files acts) = some r →
    ∃ c, .call c r ∈ acts) (fun r last => by simp [lastRequest] at last) ?_ hrun r last
  intro acts a s s' m hrun hstep inv _ r last
  rcases cycle_cases k hrun hstep with ⟨c, r', rfl, -, -, last'⟩ | ⟨-, -, last'⟩
  · obtain rfl := Option.some.inj (last.symm.trans last')
    exact ⟨c, by simp⟩
  · obtain ⟨c, hc⟩ := inv r (last' ▸ last)
    exact ⟨c, List.mem_append_left _ hc⟩

/-! ## The parcel under way -/

section Unmoved

variable (h : Step D s a s' m) (unmoved : ∀ p x y, m = some ⟨p, x, y⟩ → p.key ≠ k)

include h unmoved

theorem fetched_observe_of_unmoved : fetched k (observe D s a) = [] := by
  refine List.filterMap_eq_nil_iff.2 fun o ho => ?_
  cases h.observed ho with
  | fetched pc => exact if_neg (unmoved _ _ _ rfl)
  | _ => rfl

theorem not_doneIn_observe_of_unmoved : ¬ DoneIn k (observe D s a) := by
  rintro ⟨q, hq, ho⟩
  generalize hst : Observation.recorded q .done = o at ho
  cases h.observed ho with
  | sourceStatus pc | sinkStatus pc | readStatus pc | readSinkStatus pc =>
    obtain rfl := (Observation.recorded.inj hst).1
    exact unmoved _ _ _ rfl hq
  | _ => simp at hst

theorem warehouse_of_unmoved : s'.warehouse k = s.warehouse k ∨ TakenIn k (observe D s a) := by
  refine (h.warehouse_cases k).imp_right fun change => ?_
  generalize s'.warehouse k = v at change
  cases change with
  | @subscribeErase c p b e pc key =>
    exact ⟨p, b, e, key, by simp [observe, ClientPC.observe, pc]⟩
  | @getDataErase c p e pc key =>
    exact ⟨p, true, e, key, by simp [observe, ClientPC.observe, pc]⟩
  | _ pc key => exact absurd key (unmoved _ _ _ rfl)

end Unmoved

/-- What is known of a parcel with key `k` at place `z`, after the history `h`. -/
structure Underway (k : Key) (h : List Observation) (q : Parcel) (z : Place) (s : Sys) : Prop where
  /-- it was requested last -/
  request : ∃ r, lastRequest k h = some r ∧ r.brings = some (q, z.publishing)
  pending : z.publishing = false → ¬ DoneIn k (sinceRequest k h)
  unread : z.publishing = false → z.progress ≤ 5 → fetched k (sinceRequest k h) = []
  read : ∀ j b, z = .readSink j .putData → s.readSink j = .putData q b →
    fetched k (sinceRequest k h) = [b]
  stored : ∀ j, z = .readSink j .updateStatus → ∃ b, fetched k (sinceRequest k h) = [b] ∧
    (s.warehouse k = some b ∨ TakenIn k (sinceRequest k h))

theorem Underway.of_unmoved {z : Place} (inv : Underway k (history D files acts) q z s)
    (hrun : run D files acts = some s) (hstep : step D s a = some s') (h : Step D s a s' m)
    (hq : q ∈ s.hold z) (unmoved : ∀ p x y, m = some ⟨p, x, y⟩ → p.key ≠ k)
    (others : ∀ c r, a = .call c r → r.requests k = false) :
    Underway k (history D files (acts ++ [a])) q z s' := by
  rcases cycle_cases k hrun hstep with ⟨c, r, ha, hr, -⟩ | ⟨-, since, last⟩
  · simp [others c r ha] at hr
  have noFetch := fetched_observe_of_unmoved h unmoved
  have noDone := not_doneIn_observe_of_unmoved h unmoved
  refine ⟨?_, fun hz => ?_, fun hz early => ?_, fun j b hz pc => ?_, fun j hz => ?_⟩
  · rw [last]
    exact inv.request
  · rw [since, doneIn_append]
    exact not_or.2 ⟨inv.pending hz, noDone⟩
  · rw [since, fetched_append, inv.unread hz early, noFetch]
    rfl
  · subst hz
    rcases h.readSink_put pc with same | ⟨read, -⟩
    · rw [since, fetched_append, inv.read j b rfl same, noFetch]
      rfl
    · simp [Sys.mem_hold, Sys.at, read, ReadSinkPC.held] at hq
  · obtain ⟨b, hb, entry⟩ := inv.stored j hz
    rw [since, fetched_append, hb, noFetch]
    refine ⟨b, rfl, ?_⟩
    rcases entry with entry | taken
    · exact (warehouse_of_unmoved h unmoved).imp (·.trans entry)
        fun taken => takenIn_append.2 (.inr taken)
    · exact .inr taken.append

theorem Step.observe_of_move {x z : Place} (h : Step D s a s' (some ⟨q, some x, some z⟩))
    (hz : z.publishing = false) :
    ¬ DoneIn k (observe D s a) ∧ (z.progress ≠ 6 → fetched k (observe D s a) = []) := by
  generalize hm : some (Handover.mk q (some x) (some z)) = l at h
  constructor
  · rintro ⟨p, -, ho⟩
    generalize hst : Observation.recorded p .done = o at ho
    cases h.observed ho with
    | sourceStatus pc | sinkStatus pc | readSinkStatus pc => cases hm <;> simp [Place.publishing] at hz
    | _ => simp at hst
  · intro late
    refine List.filterMap_eq_nil_iff.2 fun o ho => ?_
    cases h.observed ho with
    | fetched pc => cases hm; exact absurd rfl late
    | _ => rfl

theorem Underway.of_move {x z : Place} (inv : Underway k (history D files acts) q x s)
    (hrun : run D files acts = some s) (hstep : step D s a = some s')
    (h : Step D s a s' (some ⟨q, some x, some z⟩)) (hk : q.key = k) :
    Underway k (history D files (acts ++ [a])) q z s' := by
  rcases cycle_cases k hrun hstep with ⟨c, r, rfl, -⟩ | ⟨-, since, last⟩
  · exact h.not_call_of_src.elim
  have further := h.progress_eq
  have side := h.publishing_eq
  refine ⟨?_, fun hz => ?_, fun hz early => ?_, fun j b hz pc => ?_, fun j hz => ?_⟩
  · rw [last, side]
    exact inv.request
  · rw [since, doneIn_append]
    exact not_or.2 ⟨inv.pending (side ▸ hz), (h.observe_of_move hz).1⟩
  · rw [since, fetched_append, inv.unread (side ▸ hz) (by omega),
      (h.observe_of_move hz).2 (by omega)]
    rfl
  · subst hz
    obtain ⟨rfl, read, put⟩ := h.to_readSink_put
    have hx : x.progress ≤ 5 := by
      have : (Place.readSink j .putData).progress = 6 := rfl
      omega
    rw [since, fetched_append, inv.unread (side ▸ rfl) hx]
    rw [put] at pc
    cases pc
    simp [observe, read, fetched, hk]
  · subst hz
    obtain ⟨b, rfl, hx, put, entry⟩ := h.to_readSink_status
    obtain rfl := Option.some.inj hx
    refine ⟨b, ?_, .inl (hk ▸ entry)⟩
    rw [since, fetched_append, inv.read j b rfl put]
    simp [observe, put, fetched]

theorem Call.handover_of_requests (c : ℕ) (h : r.requests k = true) :
    ∃ m, r.handover c = some m ∧ m.parcel.key = k := by
  cases r <;> simp [Call.requests, Call.brings] at h
  all_goals exact ⟨_, rfl, h⟩

/-- With serial requests this is known of every parcel with the key. -/
theorem underway (serial : Serial D files k acts) (hrun : run D files acts = some s) {z : Place}
    (hz : q ∈ s.hold z) (hk : q.key = k) : Underway k (history D files acts) q z s := by
  refine place_invariant (Serial D files k)
    (fun acts q z s => Underway k (history D files acts) q z s)
    (fun _ _ => Serial.of_append) (fun _ => id) ?_ ?_ hrun serial hz hk
  · intro acts a s s' m q z hrun hstep serial h hq hk unmoved inv
    refine inv.of_unmoved hrun hstep h hq unmoved fun c r ha => ?_
    -- a request while the parcel is under way would not be serial
    by_contra hr
    obtain ⟨m', hm, hk'⟩ := Call.handover_of_requests c (by simpa using hr)
    exact serial acts c r [] s m' (by rw [ha]) hrun hm hk' z q hq hk
  · intro acts a s s' q x z hrun hstep serial h hk before
    rcases h.handover_cases with ⟨c, r, y, rfl, hr, hsrc, hdst⟩ | ⟨x, hsrc, -⟩
    · have brings := Call.brings_of_handover hr
      have requests := Call.requests_of_handover hr hk
      rcases cycle_cases k hrun hstep with ⟨_, _, ha, -, since, last⟩ | ⟨others, -⟩
      · cases ha
        have atClient : ∃ st, z = .client c st := by
          cases r <;> cases hr <;> exact ⟨_, rfl⟩
        obtain ⟨st, rfl⟩ := atClient
        refine ⟨⟨r, last, brings⟩, fun _ => ?_, fun _ _ => ?_, by simp, by simp⟩
        · rw [since]
          rintro ⟨_, _, ho⟩
          simp at ho
        · rw [since]
          rfl
      · simp [others c r rfl] at requests
    · obtain rfl : _ = some x := hsrc
      exact (before x rfl).2.of_move hrun hstep h hk

/-- What a read that is done leaves behind: nothing is under way, a sink has read once, and the
warehouse has the bytes unless a client has taken them. -/
theorem fetched_of_done (serial : Serial D files k acts) (hrun : run D files acts = some s)
    (last : lastRequest k (history D files acts) = some r) (brings : r.brings = some (q, false))
    (done : DoneIn k (sinceRequest k (history D files acts))) :
    Quiet Parcel.key s.hold k ∧ ∃ b, fetched k (sinceRequest k (history D files acts)) = [b] ∧
      (s.warehouse k = some b ∨ TakenIn k (sinceRequest k (history D files acts))) := by
  refine run_invariant_under (Serial D files k)
    (fun acts s => ∀ r q, lastRequest k (history D files acts) = some r →
      r.brings = some (q, false) → DoneIn k (sinceRequest k (history D files acts)) →
      Quiet Parcel.key s.hold k ∧ ∃ b, fetched k (sinceRequest k (history D files acts)) = [b] ∧
        (s.warehouse k = some b ∨ TakenIn k (sinceRequest k (history D files acts))))
    (fun _ _ => Serial.of_append) (fun r q last => by simp [lastRequest] at last) ?_ hrun serial
    r q last brings done
  intro acts a s s' m hrun hstep serial inv h r q last brings done
  rcases cycle_cases k hrun hstep with ⟨_, _, -, -, since, -⟩ | ⟨others, since, same⟩
  · rw [since] at done
    obtain ⟨_, _, ho⟩ := done
    simp at ho
  rw [since, doneIn_append] at done
  rw [since, fetched_append]
  rcases done with done | done
  · -- already done before: nothing of this key moves any more
    obtain ⟨quiet, b, hb, entry⟩ := inv r q (same ▸ last) brings done
    have unmoved : ∀ p x y, m = some ⟨p, x, y⟩ → p.key ≠ k := by
      rintro p x y rfl hk
      rcases h.handover_cases with ⟨c, r, y, rfl, hr, hsrc, hdst⟩ | ⟨x, hsrc, -⟩
      · have requests := Call.requests_of_handover hr hk
        simp [others c r rfl] at requests
      · obtain rfl : _ = some x := hsrc
        exact quiet x p h.mem_src hk
    refine ⟨?_, b, by rw [hb, fetched_observe_of_unmoved h unmoved]; rfl, ?_⟩
    · cases m with
      | none => exact h.hold_eq ▸ quiet
      | some m => exact quiet.of_transfer h.transfer (unmoved _ _ _ rfl)
    · rcases entry with entry | taken
      · exact (warehouse_of_unmoved h unmoved).imp (·.trans entry)
          fun taken => takenIn_append.2 (.inr taken)
      · exact .inr taken.append
  · -- only the sink of the requested read can have recorded it
    obtain ⟨p, hp, ho⟩ := done
    have requested {z : Place} (hz : p ∈ s.hold z) : z.publishing = false := by
      obtain ⟨r', hr', brings'⟩ := (underway serial.of_append hrun hz hp).request
      obtain rfl := Option.some.inj (hr'.symm.trans (same ▸ last))
      rw [brings] at brings'
      simp only [Option.some.injEq, Prod.mk.injEq] at brings'
      exact brings'.2.symm
    generalize hst : Observation.recorded p .done = o at ho
    cases h.observed ho with
    | sourceStatus pc | sinkStatus pc =>
      obtain rfl := (Observation.recorded.inj hst).1
      simpa [Place.publishing] using requested h.mem_src
    | @readSinkStatus j _ _ pc =>
      obtain rfl := (Observation.recorded.inj hst).1
      obtain ⟨b, hb, entry⟩ := (underway serial.of_append hrun h.mem_src hp).stored j rfl
      refine ⟨?_, b, by rw [hb]; simp [observe, pc, fetched], ?_⟩
      · have solo : Solo Parcel.key s.hold p.key := hp ▸ serial.of_append.solo hrun
        exact hp ▸ solo.quiet_of_leave h.transfer
      · refine entry.imp (fun entry => ?_) TakenIn.append
        rcases h.warehouse_cases k with same | change
        · exact same.trans entry
        · cases change
    | _ => simp at hst

end Rhea
