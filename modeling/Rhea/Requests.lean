import Rhea.History

/-!
# The requests on one key

The maps and the queues know a parcel by its key only.  `Serial k` says that key `k` is requested
only while no parcel with it is under way; then there is at most one such parcel at any time
(`Serial.solo`).  `PublishOnly p d` says that `Publish(p, d)` is the only use of `p`'s key in the
whole run.  `Observed` ties each report to the step that makes it.
-/

namespace Rhea

open Transition Custody

variable {D : Deployment} {files : Files} {acts : List Action} {s s' : Sys} {a : Action}
  {m : Option Handover} {k : Key} {p q : Parcel} {d : Bytes}

/-- In the run, a parcel with key `k` is requested only when none is in the system. -/
def Serial (D : Deployment) (files : Files) (k : Key) (acts : List Action) : Prop :=
  ∀ pre c r post t m, acts = pre ++ .call c r :: post → run D files pre = some t →
    r.handover c = some m → m.parcel.key = k → Quiet Parcel.key t.hold k

theorem Serial.of_append (h : Serial D files k (acts ++ [a])) : Serial D files k acts := by
  intro pre c r post t m hacts
  exact h pre c r (post ++ [a]) t m (by simp [hacts])

/-- With serial requests at most one parcel with the key is in the system. -/
theorem Serial.solo (serial : Serial D files k acts) (hrun : run D files acts = some s) :
    Solo Parcel.key s.hold k := by
  refine run_invariant_under (Serial D files k) (fun _ s => Solo Parcel.key s.hold k)
    (fun _ _ => Serial.of_append) (quiet_init files k).solo ?_ hrun serial
  · intro acts a s s' m hrun _ serial inv h
    refine h.solo inv fun c r m ha hm hk => ?_
    exact serial acts c r [] s m (by rw [ha]) hrun hm hk

/-- What holds of a parcel at the place where it is, for a key with serial requests: it is enough
that it is kept by the steps that do not move the key and established by those that move the
parcel. -/
theorem place_invariant (O : List Action → Prop) (P : List Action → Parcel → Place → Sys → Prop)
    (prefixClosed : ∀ acts a, O (acts ++ [a]) → O acts)
    (serial : ∀ acts, O acts → Serial D files k acts)
    (unmoved : ∀ acts a s s' m q z, run D files acts = some s → step D s a = some s' →
      O (acts ++ [a]) → Step D s a s' m → q ∈ s.hold z → q.key = k →
      (∀ p x y, m = some ⟨p, x, y⟩ → p.key ≠ k) → P acts q z s → P (acts ++ [a]) q z s')
    (moved : ∀ acts a s s' q x z, run D files acts = some s → step D s a = some s' →
      O (acts ++ [a]) → Step D s a s' (some ⟨q, x, some z⟩) → q.key = k →
      (∀ y, x = some y → q ∈ s.hold y ∧ P acts q y s) → P (acts ++ [a]) q z s')
    (hrun : run D files acts = some s) (hok : O acts) {z : Place} (hz : q ∈ s.hold z)
    (hk : q.key = k) : P acts q z s := by
  refine run_invariant_under O (fun acts s => ∀ q z, q ∈ s.hold z → q.key = k → P acts q z s)
    prefixClosed ?_ ?_ hrun hok q z hz hk
  · exact fun q z hz => absurd rfl (quiet_init files q.key z q hz)
  · intro acts a s s' m hrun hstep hok inv h q z hz hk
    have hrun' : run D files (acts ++ [a]) = some s' := (exec_snoc_eq_some _).2 ⟨s, hrun, hstep⟩
    have before := (serial acts (prefixClosed acts a hok)).solo hrun
    rcases h.place_cases before ((serial _ hok).solo hrun') hz hk with ⟨hz, stays⟩ | ⟨x, rfl⟩
    · exact unmoved acts a s s' m q z hrun hstep hok h hz hk stays (inv q z hz hk)
    · refine moved acts a s s' q x z hrun hstep hok h hk fun y hy => ?_
      subst hy
      exact ⟨h.mem_src, inv q y h.mem_src hk⟩

/-! ## One publish -/

theorem eq_of_countP_le_one {α : Type*} {P : α → Bool} {l : List α} (h : l.countP P ≤ 1) {x y : α}
    (hx : x ∈ l) (hy : y ∈ l) (hPx : P x = true) (hPy : P y = true) : x = y := by
  rw [List.countP_eq_length_filter] at h
  have hx' := List.mem_filter.2 ⟨hx, hPx⟩
  have hy' := List.mem_filter.2 ⟨hy, hPy⟩
  rcases hl : l.filter P with - | ⟨z, - | ⟨z', l'⟩⟩
  · simp [hl] at hx'
  · rw [hl, List.mem_singleton] at hx' hy'
    rw [hx', hy']
  · simp [hl] at h

/-- The only use the run makes of the key of `p` is one `Publish(p, d)`. -/
structure PublishOnly (p : Parcel) (d : Bytes) (acts : List Action) : Prop where
  once : acts.countP (Action.uses p.key) ≤ 1
  publish : ∀ c r, .call c r ∈ acts → r.uses p.key = true → r = .publish p d

theorem PublishOnly.of_mem {c : ℕ} (mem : .call c (.publish p d) ∈ acts)
    (once : acts.countP (Action.uses p.key) ≤ 1) : PublishOnly p d acts where
  once := once
  publish c' r hr hu := by
    have := eq_of_countP_le_one once hr mem hu (by simp [Action.uses, Call.uses])
    cases this
    rfl

namespace PublishOnly

theorem of_prefix {pre : List Action} (h : PublishOnly p d acts) (hpre : pre <+: acts) :
    PublishOnly p d pre where
  once := hpre.sublist.countP_le.trans h.once
  publish c r hr := h.publish c r (hpre.subset hr)

theorem of_append (h : PublishOnly p d (acts ++ [a])) : PublishOnly p d acts :=
  h.of_prefix (List.prefix_append ..)

theorem client_eq (h : PublishOnly p d acts) {c c' : ℕ} {r r' : Call} (hr : .call c r ∈ acts)
    (hu : r.uses p.key = true) (hr' : .call c' r' ∈ acts) (hu' : r'.uses p.key = true) : c = c' := by
  have := eq_of_countP_le_one h.once hr hr' hu hu'
  cases this
  rfl

theorem unused (h : PublishOnly p d (acts ++ [a])) (hu : a.uses p.key = true) :
    ¬ Used p.key acts := by
  rintro ⟨c, r, hr, hur⟩
  have hpos : 0 < acts.countP (Action.uses p.key) := List.countP_pos_iff.2 ⟨_, hr, hur⟩
  have := h.once
  rw [List.countP_append, List.countP_singleton, if_pos hu] at this
  omega

theorem serial (h : PublishOnly p d acts) : Serial D files p.key acts := by
  intro pre c r post t m hacts hrun hm hk
  have hu : r.uses p.key = true := by
    cases r <;> cases hm <;> simpa [Call.uses] using hk
  exact quiet_of_unused hrun ((h.of_prefix ⟨post, by simp [hacts]⟩).unused (a := .call c r) hu)

theorem solo (h : PublishOnly p d acts) (hrun : run D files acts = some s) :
    Solo Parcel.key s.hold p.key := h.serial.solo hrun

theorem eq_of_mem (h : PublishOnly p d acts) (hrun : run D files acts = some s) {z : Place}
    (hq : q ∈ s.hold z) (hk : q.key = p.key) : q = p ∧ z.publishing = true := by
  obtain ⟨c, r, hr, hb⟩ := requested_of_mem hrun hq
  obtain rfl := h.publish c r hr (hk ▸ Call.uses_of_brings hb)
  simp only [Call.brings, Option.some.injEq, Prod.mk.injEq] at hb
  exact ⟨hb.1.symm, hb.2.symm⟩

/-- `place_invariant` for a parcel that is published once. -/
theorem place_invariant (P : List Action → Place → Sys → Prop)
    (unmoved : ∀ acts a s s' m z, run D files acts = some s → step D s a = some s' →
      PublishOnly p d (acts ++ [a]) → Step D s a s' m → p ∈ s.hold z →
      (∀ q x y, m = some ⟨q, x, y⟩ → q.key ≠ p.key) → P acts z s → P (acts ++ [a]) z s')
    (moved : ∀ acts a s s' x z, run D files acts = some s → step D s a = some s' →
      PublishOnly p d (acts ++ [a]) → Step D s a s' (some ⟨p, x, some z⟩) →
      (∀ y, x = some y → p ∈ s.hold y ∧ P acts y s) → P (acts ++ [a]) z s')
    (hrun : run D files acts = some s) (only : PublishOnly p d acts) {z : Place}
    (hz : p ∈ s.hold z) : P acts z s := by
  refine Rhea.place_invariant (PublishOnly p d) (fun acts q z s => q = p → P acts z s)
    (fun _ _ => of_append) (fun _ => serial) ?_ ?_ hrun only hz rfl rfl
  · rintro acts a s s' m q z hrun hstep only h hq hk stays inv rfl
    exact unmoved acts a s s' m z hrun hstep only h hq stays (inv rfl)
  · rintro acts a s s' q x z hrun hstep only h hk before rfl
    exact moved acts a s s' x z hrun hstep only h fun y hy => (before y hy).imp_right fun b => b rfl

theorem serves (h : PublishOnly p d acts) (hrun : run D files acts = some s) {c : ℕ}
    (busy : (s.client c).free = false) :
    Serves (.publish p d) (s.client c) ∨ ∃ r, Serves r (s.client c) ∧ r.uses p.key = false := by
  rcases served hrun c with free | ⟨r, hr, hs⟩
  · simp [busy] at free
  · cases hu : r.uses p.key
    · exact .inr ⟨r, hs, hu⟩
    · exact .inl (h.publish c r hr hu ▸ hs)

theorem put_eq (h : PublishOnly p d acts) (hrun : run D files acts = some s) {c : ℕ} {e : Bytes}
    (pc : s.client c = .publishPut q e) (hk : q.key = p.key) :
    q = p ∧ e = d.take p.dataSize := by
  rcases h.serves hrun (c := c) (by rw [pc]; rfl) with hs | ⟨r, hs, hu⟩ <;> rw [pc] at hs <;>
    cases hs
  · exact ⟨rfl, rfl⟩
  · simp [Call.uses, hk] at hu

theorem not_erasing (h : PublishOnly p d acts) (hrun : run D files acts = some s) {c : ℕ}
    (erasing : (∃ b e, s.client c = .subscribeErase q b e) ∨ ∃ e, s.client c = .getDataErase q e) :
    q.key ≠ p.key := by
  intro hk
  rcases erasing with ⟨b, e, pc⟩ | ⟨e, pc⟩ <;>
    rcases h.serves hrun (c := c) (by rw [pc]; rfl) with hs | ⟨r, hs, hu⟩ <;> rw [pc] at hs <;>
    cases hs <;> simp [Call.uses, hk] at hu

end PublishOnly

/-! ## What is reported -/

/-- The steps at which something is reported. -/
inductive Observed (D : Deployment) (s : Sys) : Action → Option Handover → Observation → Prop
  | requested (c : ℕ) (r : Call) (free : (s.client c).free = true) :
    Observed D s (.call c r) (r.handover c) (.requested c r)
  | pushed {c p} (pc : s.client c = .publishPush p) :
    Observed D s (.client c)
      (some ⟨p, some (.client c .push), some (.writeQueue (D.myServer c))⟩)
      (.pushed (D.myServer c) p)
  | popped {i amount l p q} (pc : s.writeSource i = .pop amount l)
    (queue : s.writeQueue (D.writeServer i) = p :: q) :
    Observed D s (.writeSource i)
      (some ⟨p, some (.writeQueue (D.writeServer i)), some (.writeBatch i)⟩) (.popped i p)
  | writtenDirect {i p d rest} (pc : s.writeSource i = .write p d rest)
    (last : (D.writeJob i).source.linked = false) :
    Observed D s (.writeSource i)
      (some ⟨p, some (.writeSource i .write), some (.writeSource i .deleteData)⟩) (.written p)
  | written {j p d} (pc : s.writeSink j = .write p d) :
    Observed D s (.writeSink j)
      (some ⟨p, some (.writeSink j .write), some (.writeSink j .updateStatus)⟩) (.written p)
  | deleted {i p rest} (pc : s.writeSource i = .deleteData p rest) :
    Observed D s (.writeSource i)
      (some ⟨p, some (.writeSource i .deleteData), some (.writeSource i .updateStatus)⟩)
      (.deleted p)
  | publishState {c p t} (pc : s.client c = .publishState p t) :
    Observed D s (.client c) none (.recorded p .queued)
  | sourceStatus {i p t rest} (pc : s.writeSource i = .updateStatus p t rest) :
    Observed D s (.writeSource i)
      (some ⟨p, some (.writeSource i .updateStatus), some (.writeSource i .emit)⟩)
      (.recorded p (D.writeJob i).source.status)
  | sinkStatus {j p t} (pc : s.writeSink j = .updateStatus p t) :
    Observed D s (.writeSink j) (some ⟨p, some (.writeSink j .updateStatus), none⟩)
      (.recorded p .done)
  | readStatus {i p t rest} (pc : s.readSource i = .updateStatus p t rest) :
    Observed D s (.readSource i) (some ⟨p, some (.readBatch i), some (.readEmit i)⟩)
      (.recorded p .inProgress)
  | readSinkStatus {j p t} (pc : s.readSink j = .updateStatus p t) :
    Observed D s (.readSink j) (some ⟨p, some (.readSink j .updateStatus), none⟩)
      (.recorded p .done)
  | fetched {j p} (pc : s.readSink j = .read p) :
    Observed D s (.readSink j) (some ⟨p, some (.readSink j .read), some (.readSink j .putData)⟩)
      (.fetched p (readSinkData D s.files p))
  | waited {c p r after} (pc : s.client c = .waitErase p r after) :
    Observed D s (.client c) none (.waited p r)
  | subscribed {c p b d} (pc : s.client c = .subscribeErase p b d) :
    Observed D s (.client c) none (.subscribed p b d)
  | missed {c p d} (pc : s.client c = .getDataGet p d) (miss : s.warehouse p.key = none) :
    Observed D s (.client c) none (.subscribed p false d)
  | gotData {c p d} (pc : s.client c = .getDataErase p d) :
    Observed D s (.client c) none (.subscribed p true d)

/-- Every report is made at one of the listed steps. -/
theorem Step.observed (h : Step D s a s' m) {o : Observation} (ho : o ∈ observe D s a) :
    Observed D s a m o := by
  cases h
  case call c r free =>
    obtain rfl : o = _ := by simpa [observe] using ho
    exact .requested c r free
  case publishPush c p pc =>
    obtain rfl : o = _ := by simpa [observe, ClientPC.observe, pc] using ho
    exact .pushed pc
  case publishState c p t pc =>
    obtain rfl : o = _ := by simpa [observe, ClientPC.observe, pc] using ho
    exact .publishState pc
  case waitErase c p r after pc =>
    obtain rfl : o = _ := by simpa [observe, ClientPC.observe, pc] using ho
    exact .waited pc
  case subscribeErase c p b d pc =>
    obtain rfl : o = _ := by simpa [observe, ClientPC.observe, pc] using ho
    exact .subscribed pc
  case getDataMiss c p d pc miss =>
    obtain rfl : o = _ := by simpa [observe, ClientPC.observe, pc, miss] using ho
    exact .missed pc miss
  case getDataErase c p d pc =>
    obtain rfl : o = _ := by simpa [observe, ClientPC.observe, pc] using ho
    exact .gotData pc
  case sourcePop i amount l p q pc more queue =>
    obtain rfl : o = _ := by simpa [observe, WriteSourcePC.observe, pc, more, queue] using ho
    exact .popped pc queue
  case sourceWrite i p d rest pc =>
    cases last : (D.writeJob i).source.linked
    · obtain rfl : o = _ := by simpa [observe, WriteSourcePC.observe, pc, last] using ho
      exact .writtenDirect pc last
    · simp [observe, WriteSourcePC.observe, pc, last] at ho
  case sourceDelete i p rest pc =>
    obtain rfl : o = _ := by simpa [observe, WriteSourcePC.observe, pc] using ho
    exact .deleted pc
  case sourceStatus i p t rest pc =>
    obtain rfl : o = _ := by simpa [observe, WriteSourcePC.observe, pc] using ho
    exact .sourceStatus pc
  case sinkWrite j p d pc =>
    obtain rfl : o = _ := by simpa [observe, pc] using ho
    exact .written pc
  case sinkStatus j p t pc =>
    obtain rfl : o = _ := by simpa [observe, pc] using ho
    exact .sinkStatus pc
  case readStatus i p t rest pc =>
    obtain rfl : o = _ := by simpa [observe, pc] using ho
    exact .readStatus pc
  case readSinkRead j p pc =>
    obtain rfl : o = _ := by simpa [observe, pc] using ho
    exact .fetched pc
  case readSinkStatus j p t pc =>
    obtain rfl : o = _ := by simpa [observe, pc] using ho
    exact .readSinkStatus pc
  case sourceNext i amount l pc ends =>
    simp [observe_sourceNext pc ends] at ho
  case getDataGet c p d v pc found =>
    simp [observe, ClientPC.observe, pc, found] at ho
  all_goals simp [observe, ClientPC.observe, WriteSourcePC.observe, *] at ho

/-- The key that a report shows to be in use. -/
def Observation.key : Observation → Option Key
  | .requested _ _ | .waited _ _ => none
  | .pushed _ p | .popped _ p | .written p | .deleted p | .recorded p _ | .fetched p _
  | .subscribed p _ _ => some p.key

theorem used_of_history (hrun : run D files acts = some s) {o : Observation}
    (ho : o ∈ history D files acts) (hk : o.key = some k) : Used k acts := by
  refine run_invariant
    (fun acts _ => ∀ o ∈ history D files acts, o.key = some k → Used k acts)
    (by simp) ?_ hrun o ho hk
  intro acts a s s' m hrun hstep inv h o ho hk
  rw [history_snoc hrun hstep, List.mem_append] at ho
  have serving {c : ℕ} (busy : (s.client c).free = false) :
      ∃ r, .call c r ∈ acts ∧ Serves r (s.client c) :=
    (served hrun c).resolve_left (by simp [busy])
  rcases ho with ho | ho
  · exact (inv o ho hk).append
  · cases h.observed ho with
    | requested c r free => simp [Observation.key] at hk
    | waited pc => simp [Observation.key] at hk
    | publishState pc | subscribed pc | missed pc | gotData pc =>
      obtain ⟨r, hr, hs⟩ := serving (by rw [pc]; rfl)
      rw [pc] at hs
      refine Used.append ⟨_, r, hr, ?_⟩
      cases hs
      simpa [Call.uses, Observation.key] using hk
    | _ pc =>
      obtain rfl := Option.some.inj hk
      exact (used_of_mem hrun h.mem_src).append

/-- A parcel does not fall behind the place where something was reported of it. -/
theorem PublishOnly.progress_of_history {n : ℕ} {o : Observation} (only : PublishOnly p d acts)
    (hrun : run D files acts = some s) (hk : o.key = some p.key)
    (made : ∀ s a s' m, Step D s a s' m → o ∈ observe D s a →
      ∃ x y, m = some ⟨p, x, y⟩ ∧ ∀ z, y = some z → n ≤ z.progress)
    (ho : o ∈ history D files acts) {z : Place} (hz : p ∈ s.hold z) : n ≤ z.progress := by
  refine only.place_invariant
    (fun acts z _ => o ∈ history D files acts → n ≤ z.progress) ?_ ?_ hrun hz ho
  · intro acts a s s' m z hrun hstep only h hz unmoved inv ho
    rw [history_snoc hrun hstep, List.mem_append] at ho
    rcases ho with ho | ho
    · exact inv ho
    · obtain ⟨x, y, hm, -⟩ := made s a s' m h ho
      exact absurd rfl (unmoved p x y hm)
  · intro acts a s s' x z hrun hstep only h before ho
    rw [history_snoc hrun hstep, List.mem_append] at ho
    rcases ho with ho | ho
    · rcases h.handover_cases with ⟨c, r, y, rfl, hr, -, -⟩ | ⟨x, hsrc, -⟩
      · refine absurd (used_of_history hrun ho hk) (only.unused (a := .call c r) ?_)
        exact Call.uses_of_brings (Call.brings_of_handover hr)
      · obtain rfl : _ = some x := hsrc
        have := (before x rfl).2 ho
        have := h.progress_eq
        omega
    · obtain ⟨x', y, hm, far⟩ := made s a s' _ h ho
      cases hm
      exact far z rfl

theorem Place.progress_le (z : Place) : z.progress ≤ 12 := by
  cases z with
  | client c st | writeSource i st | writeSink j st | readSink j st => cases st <;> simp [Place.progress]
  | _ => simp [Place.progress]

/-- Once `DONE` has been recorded for a parcel of `RheaWriteJob`, it is not under way any more. -/
theorem PublishOnly.quiet_of_done (rhea : ∀ i, D.writeJob i = .rhea) (only : PublishOnly p d acts)
    (hrun : run D files acts = some s) (ho : .recorded p .done ∈ history D files acts) :
    Quiet Parcel.key s.hold p.key := by
  intro z q hq hk
  obtain ⟨rfl, -⟩ := only.eq_of_mem hrun hq hk
  have late : 13 ≤ z.progress := by
    refine only.progress_of_history hrun (by rfl) ?_ ho hq
    intro s a s' m h ho
    generalize hst : Observation.recorded q .done = o at ho
    cases h.observed ho with
    | @sourceStatus i _ _ _ pc => simp [rhea i, WriteJob.source, rheaWriteQueueSourceTask] at hst
    | sinkStatus pc | readSinkStatus pc =>
      cases hst
      exact ⟨_, _, rfl, by simp⟩
    | _ => simp at hst
  have := z.progress_le
  omega

/-! ## Completions -/

theorem waitErase_of_clientStep {c : ℕ} {sh sh' : Shared} {pc : ClientPC} {r : ParcelState}
    {after : AfterWait} (hstep : clientStep D c sh pc = some (sh', .waitErase q r after)) :
    pc = .waitGet q after ∧ sh.parselState q.key = some r ∧ r.status = .done := by
  cases pc with
  | waitGet p after' =>
    obtain h | ⟨result, h, found, completed⟩ := clientStep_waitGet hstep
    · cases h
    · cases h
      exact ⟨rfl, found, completed⟩
  | waitErase p r' after' =>
    simp only [clientStep, Option.some.injEq, Prod.mk.injEq] at hstep
    cases after' with
    | waitAll rest states => cases rest <;> simp [waitReturn, waitAllNext] at hstep
    | _ => simp [waitReturn] at hstep
  | getDataGet p e =>
    obtain ⟨v, h⟩ | ⟨data, h⟩ := clientStep_getDataGet hstep <;> cases h
  | _ => simp [clientStep] at hstep

theorem step_waitErase (hstep : step D s a = some s') {c : ℕ} {r : ParcelState} {after : AfterWait}
    (pc : s'.client c = .waitErase q r after) :
    s.client c = .waitErase q r after ∨ s.client c = .waitGet q after ∧ a = .client c ∧
      s.parselState q.key = some r ∧ r.status = .done := by
  rcases step_client hstep c with same | ⟨r', rfl, -, hpc⟩ | ⟨sh, rfl, hpc⟩ | ⟨rfl, hpc⟩
  · exact .inl (same ▸ pc)
  · rw [pc] at hpc
    cases r' with
    | waitAll l => cases l <;> simp [clientStart, waitAllNext] at hpc
    | _ => simp [clientStart] at hpc
  · rw [pc] at hpc
    obtain ⟨hwait, found, completed⟩ := waitErase_of_clientStep hpc
    exact .inr ⟨hwait, rfl, found, completed⟩
  · rw [pc] at hpc
    cases hc : s.client c <;> simp [hc, clientFail] at hpc

theorem StatusStep.recorded_mem_observe {v : ParcelState} (h : StatusStep D s k a m (some v)) :
    ∃ q, q.key = k ∧ .recorded q v.status ∈ observe D s a := by
  generalize hw : some v = w at h
  cases h with
  | waitErase pc key => simp at hw
  | publishState pc key | sourceStatus pc key | sinkStatus pc key | readStatus pc key
    | readSinkStatus pc key =>
    cases hw
    refine ⟨_, key, ?_⟩
    simp [observe, ClientPC.observe, WriteSourcePC.observe, pc]

theorem recorded_of_parselState (hrun : run D files acts = some s) {v : ParcelState}
    (hv : s.parselState k = some v) :
    ∃ q, q.key = k ∧ .recorded q v.status ∈ history D files acts := by
  refine run_invariant (fun acts s => ∀ v, s.parselState k = some v →
    ∃ q, q.key = k ∧ .recorded q v.status ∈ history D files acts)
    (fun v hv => by simp [Sys.init] at hv) ?_ hrun v hv
  intro acts a s s' m hrun hstep inv h v hv
  rw [history_snoc hrun hstep]
  rcases h.parselState_cases k with same | change
  · obtain ⟨q, hq, ho⟩ := inv v (same ▸ hv)
    exact ⟨q, hq, List.mem_append_left _ ho⟩
  · rw [hv] at change
    obtain ⟨q, hq, ho⟩ := change.recorded_mem_observe
    exact ⟨q, hq, List.mem_append_right _ ho⟩

/-- A `Wait` returns only after `DONE` has been recorded. -/
theorem recorded_of_waited (hrun : run D files acts = some s) {r : ParcelState}
    (ho : .waited q r ∈ history D files acts) :
    ∃ q', q'.key = q.key ∧ .recorded q' .done ∈ history D files acts := by
  suffices h : (∀ c q r after, s.client c = .waitErase q r after →
      ∃ q', q'.key = q.key ∧ .recorded q' .done ∈ history D files acts) ∧
      ∀ q r, .waited q r ∈ history D files acts →
        ∃ q', q'.key = q.key ∧ .recorded q' .done ∈ history D files acts from h.2 q r ho
  refine run_invariant (fun acts s => (∀ c q r after, s.client c = .waitErase q r after →
      ∃ q', q'.key = q.key ∧ .recorded q' .done ∈ history D files acts) ∧
      ∀ q r, .waited q r ∈ history D files acts →
        ∃ q', q'.key = q.key ∧ .recorded q' .done ∈ history D files acts)
    ⟨fun c q r after pc => by simp [Sys.init] at pc, by simp⟩ ?_ hrun
  rintro acts a s s' m hrun hstep ⟨found, waited⟩ h
  rw [history_snoc hrun hstep]
  refine ⟨fun c q r after pc => ?_, fun q r ho => ?_⟩
  · rcases step_waitErase hstep pc with pc | ⟨-, -, cell, completed⟩
    · obtain ⟨q', hq, ho⟩ := found c q r after pc
      exact ⟨q', hq, List.mem_append_left _ ho⟩
    · obtain ⟨q', hq, ho⟩ := recorded_of_parselState hrun cell
      exact ⟨q', hq, List.mem_append_left _ (completed ▸ ho)⟩
  · rcases List.mem_append.1 ho with ho | ho
    · obtain ⟨q', hq, ho⟩ := waited q r ho
      exact ⟨q', hq, List.mem_append_left _ ho⟩
    · cases h.observed ho with
      | waited pc =>
        obtain ⟨q', hq, ho⟩ := found _ _ _ _ pc
        exact ⟨q', hq, List.mem_append_left _ ho⟩

end Rhea
