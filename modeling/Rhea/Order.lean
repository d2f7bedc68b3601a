import Rhea.Acknowledged

/-!
# The order of the writes

Parcels leave a write queue in the order in which they were pushed, a collector emits them in the
order in which it popped them, and a sink writes them in the order in which they were emitted.  The
three stages are the three invariants `pushed_eq`, `popped_eq` and `emitted_eq`; before them a client
pushes in the order in which it publishes (`published_sublist`), and the collector of `IOFWriteJob`
writes what it pops at once (`direct_eq`).
-/

namespace Rhea

open Transition Custody ByteFile

variable {D : Deployment} {files : Files} {acts : List Action} {s s' : Sys} {a : Action}
  {m : Option Handover} {p q : Parcel} {d : Bytes} {l : Location}

/-! ## What is reported of the stages -/

/-- The parcel pushed to a server. -/
def Observation.pushedTo (server : ℕ) : Observation → Option Parcel
  | .pushed server' p => if server' = server then some p else none
  | _ => none

/-- The parcel popped from a server. -/
def Observation.poppedFrom (D : Deployment) (server : ℕ) : Observation → Option Parcel
  | .popped i p => if D.writeServer i = server then some p else none
  | _ => none

/-- The parcel popped by a collector. -/
def Observation.poppedBy (i : ℕ) : Observation → Option Parcel
  | .popped i' p => if i' = i then some p else none
  | _ => none

/-- The parcel written to its destination. -/
def Observation.writes : Observation → Option Parcel
  | .written p => some p
  | _ => none

/-- A queue is first-in first-out. -/
theorem pushed_eq (hrun : run D files acts = some s) (server : ℕ) :
    (history D files acts).filterMap (Observation.pushedTo server) =
      (history D files acts).filterMap (Observation.poppedFrom D server) ++ s.writeQueue server := by
  refine run_invariant (fun acts s => (history D files acts).filterMap (Observation.pushedTo server) =
    (history D files acts).filterMap (Observation.poppedFrom D server) ++ s.writeQueue server) rfl ?_ hrun
  intro acts a s s' m hrun hstep inv h
  rw [history_snoc hrun hstep, List.filterMap_append, List.filterMap_append, inv]
  clear hstep
  cases h
  case publishPush c p pc =>
    by_cases hs : D.myServer c = server
    · simp [observe, ClientPC.observe, pc, Observation.pushedTo, Observation.poppedFrom, hs]
    · simp [observe, ClientPC.observe, pc, Observation.pushedTo, Observation.poppedFrom, hs,
        Function.update_of_ne (Ne.symm hs)]
  case sourcePop i amount l p q pc more queue =>
    by_cases hs : D.writeServer i = server
    · subst hs
      simp [observe, WriteSourcePC.observe, pc, more, queue, Observation.pushedTo,
        Observation.poppedFrom]
    · simp [observe, WriteSourcePC.observe, pc, more, queue, Observation.pushedTo,
        Observation.poppedFrom, hs, Function.update_of_ne (Ne.symm hs)]
  case sourceNext i amount l pc ends =>
    simp [observe_sourceNext pc ends]
  case sourceWrite i p e rest pc =>
    cases last : (D.writeJob i).source.linked <;>
      simp [observe, WriteSourcePC.observe, pc, last, Observation.pushedTo, Observation.poppedFrom,
        List.filterMap_cons]
  all_goals simp [observe, ClientPC.observe, WriteSourcePC.observe, Observation.pushedTo,
    Observation.poppedFrom, List.filterMap_cons, *]

/-- A collector emits its parcels in the order in which it has popped them. -/
theorem popped_eq (hrun : run D files acts = some s) (i : ℕ) :
    (history D files acts).filterMap (Observation.poppedBy i) =
      s.entrusted (.emitted i) ++ s.entrusted (.collector i) := by
  refine run_invariant (fun acts s => (history D files acts).filterMap (Observation.poppedBy i) =
    s.entrusted (.emitted i) ++ s.entrusted (.collector i)) rfl ?_ hrun
  intro acts a s s' m hrun hstep inv h
  rw [history_snoc hrun hstep, List.filterMap_append, inv]
  clear hstep
  cases h
  case sourcePop i' amount l p q pc more queue =>
    rcases eq_or_ne i i' with rfl | hi
    · simp [observe, WriteSourcePC.observe, pc, more, queue, Observation.poppedBy, Sys.entrusted,
        WriteSourcePC.parcels]
    · simp [observe, WriteSourcePC.observe, pc, more, queue, Observation.poppedBy, Sys.entrusted,
        hi, hi.symm]
  case sourceEmit i' p rest pc =>
    rcases eq_or_ne i i' with rfl | hi
    · cases rest <;> simp [observe, WriteSourcePC.observe, pc, Sys.entrusted,
        WriteSourcePC.parcels, WriteSourcePC.next]
    · simp [observe, WriteSourcePC.observe, pc, Sys.entrusted, hi, hi.symm]
  case sourceNext i' amount l pc ends =>
    rw [observe_sourceNext pc ends]
    rcases eq_or_ne i i' with rfl | hi
    · cases l <;> simp [pc, Sys.entrusted, WriteSourcePC.parcels, WriteSourcePC.next]
    · simp [Sys.entrusted, hi]
  case sourceWrite i' p e rest pc =>
    rcases eq_or_ne i i' with rfl | hi
    · cases last : (D.writeJob i).source.linked <;> simp [observe, WriteSourcePC.observe, pc, last,
        Observation.poppedBy, Sys.entrusted, WriteSourcePC.parcels, List.filterMap_cons]
    · cases last : (D.writeJob i').source.linked <;> simp [observe, WriteSourcePC.observe, pc, last,
        Observation.poppedBy, Sys.entrusted, hi, List.filterMap_cons]
  case sourceWait i' pc | sourceGetData i' p rest pc | sourceDelete i' p rest pc
    | sourceStatus i' p t rest pc =>
    rcases eq_or_ne i i' with rfl | hi
    · simp [observe, WriteSourcePC.observe, pc, Observation.poppedBy, Sys.entrusted,
        WriteSourcePC.parcels, List.filterMap_cons]
    · simp [observe, WriteSourcePC.observe, pc, Observation.poppedBy, Sys.entrusted, hi,
        List.filterMap_cons]
  all_goals simp [observe, ClientPC.observe, Observation.poppedBy, Sys.entrusted,
    List.filterMap_cons, *]

/-! ## The sinks -/

/-- What a sink has been given and not written. -/
def WriteSinkPC.pending : WriteSinkPC → List Parcel
  | .read p | .remove p _ | .write p _ => [p]
  | .idle | .updateStatus _ _ => []

/-- Whether the action gives a parcel to the sink to which `RheaKeyByTask` routes it, and no parcel of
the same file waits that was emitted before it. -/
def InOrder (D : Deployment) (route : ℕ → ℕ) (s : Sys) : Action → Prop
  | .deliverWrite j n => ∀ p ∈ s.writeInbox[n]?,
      j = route (rheaKeyByTask D p) ∧ ∀ q ∈ s.writeInbox.take n, q.id ≠ p.id
  | _ => True

instance (D : Deployment) (route : ℕ → ℕ) (s : Sys) : ∀ a, Decidable (InOrder D route s a)
  | .deliverWrite j n => inferInstanceAs (Decidable (∀ p ∈ s.writeInbox[n]?,
      j = route (rheaKeyByTask D p) ∧ ∀ q ∈ s.writeInbox.take n, q.id ≠ p.id))
  | .call _ _ | .client _ | .fail _ | .writeSource _ | .writeSink _ | .readSource _
  | .deliverRead _ _ | .readSink _ | .tick _ => inferInstanceAs (Decidable True)

/-- The sinks get the parcels of each file in the order in which they were emitted. -/
abbrev InEmitOrder (D : Deployment) (files : Files) (route : ℕ → ℕ) (acts : List Action) : Prop :=
  Along (step D) (InOrder D route) (Sys.init files) acts

theorem filter_eraseIdx_of_not {α : Type*} {P : α → Bool} {l : List α} {n : ℕ} {x : α}
    (h : l[n]? = some x) (hx : P x = false) : (l.eraseIdx n).filter P = l.filter P := by
  induction l generalizing n with
  | nil => simp at h
  | cons y l ih =>
    cases n with
    | zero =>
      obtain rfl : y = x := by simpa using h
      simp [hx]
    | succ n =>
      have := ih (by simpa using h)
      simp [List.filter_cons, this]

theorem filter_eq_cons_eraseIdx {α : Type*} {P : α → Bool} {l : List α} {n : ℕ} {x : α}
    (h : l[n]? = some x) (hx : P x = true) (first : ∀ y ∈ l.take n, P y = false) :
    l.filter P = x :: (l.eraseIdx n).filter P := by
  induction l generalizing n with
  | nil => simp at h
  | cons y l ih =>
    cases n with
    | zero =>
      obtain rfl : y = x := by simpa using h
      simp [hx]
    | succ n =>
      have head : P y = false := first y (by simp)
      have := ih (by simpa using h) fun z hz => first z (by simp [hz])
      simp [head, this]

theorem routed {route : ℕ → ℕ} (order : InEmitOrder D files route acts)
    (hrun : run D files acts = some s) {j : ℕ} (hp : p ∈ (s.writeSink j).pending) :
    j = route (rheaKeyByTask D p) := by
  refine run_invariant_under (InEmitOrder D files route)
    (fun _ s => ∀ j, ∀ p ∈ (s.writeSink j).pending, j = route (rheaKeyByTask D p))
    (fun _ _ => Along.of_append (step D)) (fun j p hp => by simp [Sys.init, WriteSinkPC.pending] at hp)
    ?_ hrun order j p hp
  intro acts a s s' m hrun hstep order inv h j p hp
  clear hstep
  cases h
  case deliverWrite j' n q pc waiting =>
    rcases eq_or_ne j j' with rfl | hj
    · obtain rfl : p = q := by simpa [WriteSinkPC.pending] using hp
      exact (order.last (step D) hrun p waiting).1
    · exact inv j p (by simpa [hj] using hp)
  case sinkRead j' q pc | sinkRemove j' q e pc | sinkWrite j' q e pc | sinkStatus j' q t pc =>
    rcases eq_or_ne j j' with rfl | hj
    · refine inv j p ?_
      simp_all [WriteSinkPC.pending]
    · exact inv j p (by simpa [hj] using hp)
  all_goals exact inv j p hp

/-- The sinks write the parcels of one file in the order in which they were emitted. -/
theorem emitted_eq {route : ℕ → ℕ} (rhea : ∀ i, D.writeJob i = .rhea)
    (order : InEmitOrder D files route acts) (hrun : run D files acts = some s) (id : String) :
    (s.writeStream.map Prod.snd).filter (·.id = id) =
      ((history D files acts).filterMap Observation.writes).filter (·.id = id) ++
        ((s.writeSink (route (D.hash id))).pending.filter (·.id = id) ++
          s.writeInbox.filter (·.id = id)) := by
  refine run_invariant_under (InEmitOrder D files route)
    (fun acts s => (s.writeStream.map Prod.snd).filter (·.id = id) =
      ((history D files acts).filterMap Observation.writes).filter (·.id = id) ++
        ((s.writeSink (route (D.hash id))).pending.filter (·.id = id) ++
          s.writeInbox.filter (·.id = id)))
    (fun _ _ => Along.of_append (step D)) rfl ?_ hrun order
  intro acts a s s' m hrun hstep order inv h
  have mine {j : ℕ} {p : Parcel} (hp : p ∈ (s.writeSink j).pending) :=
    routed (order.of_append (step D)) hrun hp
  rw [history_snoc hrun hstep, List.filterMap_append, List.filter_append]
  clear hstep
  cases h
  case sourceEmit i p rest pc =>
    have linked : (D.writeJob i).source.linked = true := by
      rw [rhea]
      rfl
    simp [observe, WriteSourcePC.observe, pc, linked, inv]
  case deliverWrite j n p pc waiting =>
    obtain ⟨hj, first⟩ := order.last (step D) hrun p waiting
    rw [inv]
    by_cases hp : p.id = id
    · have head := filter_eq_cons_eraseIdx (P := fun q : Parcel => q.id = id) waiting
        (by simpa using hp) fun q hq => by simpa [hp] using first q hq
      have here : route (D.hash id) = j := by rw [hj, rheaKeyByTask, hp]
      simp [observe, here, pc, WriteSinkPC.pending, hp, head]
    · have tail := filter_eraseIdx_of_not (P := fun q : Parcel => q.id = id) waiting (by simpa)
      by_cases here : route (D.hash id) = j
      · simp [observe, here, pc, WriteSinkPC.pending, hp, tail]
      · simp [observe, here, tail]
  case sinkWrite j p e pc =>
    have hj := mine (j := j) (p := p) (by simp [pc, WriteSinkPC.pending])
    rw [inv]
    by_cases hp : p.id = id
    · have here : route (D.hash id) = j := by rw [hj, rheaKeyByTask, hp]
      simp [observe, pc, Observation.writes, here, WriteSinkPC.pending, hp]
    · by_cases here : route (D.hash id) = j
      · simp [observe, pc, Observation.writes, here, WriteSinkPC.pending, hp]
      · simp [observe, pc, Observation.writes, here, hp]
  case sinkRead j p pc | sinkRemove j p e pc =>
    by_cases here : route (D.hash id) = j <;>
      simp [observe, pc, here, WriteSinkPC.pending, inv]
  case sinkStatus j p t pc =>
    by_cases here : route (D.hash id) = j <;>
      simp [observe, pc, Observation.writes, here, WriteSinkPC.pending, List.filterMap_cons, inv]
  case sourceWrite i p e rest pc =>
    have linked : (D.writeJob i).source.linked = true := by
      rw [rhea]
      rfl
    simp [observe, WriteSourcePC.observe, pc, linked, inv]
  case sourceNext i amount l pc ends =>
    simp [observe_sourceNext pc ends, inv]
  all_goals simp [observe, ClientPC.observe, WriteSourcePC.observe, Observation.writes,
    List.filterMap_cons, *]

/-! ## The client -/

/-- What a client publishes and has not pushed. -/
def ClientPC.unpushed : ClientPC → List Parcel
  | .publishPut p _ | .publishPush p => [p]
  | _ => []

theorem ClientPC.unpushed_of_free {pc : ClientPC} (free : pc.free = true) : pc.unpushed = [] := by
  cases pc <;> first | rfl | simp [ClientPC.free] at free

theorem ClientPC.unpushed_waitReturn (p : Parcel) (result : ParcelState) (after : AfterWait) :
    (waitReturn p result after).unpushed = [] := by
  cases after with
  | waitAll l states => cases l <;> rfl
  | _ => rfl

theorem ClientPC.unpushed_clientStart (c : ℕ) (r : Call) :
    (clientStart r).unpushed = (publishes [.call c r]).map Prod.fst := by
  cases r with
  | waitAll l => cases l <;> rfl
  | _ => rfl

/-- The client that publishes, and the file. -/
def Action.publisher : Action → Option (ℕ × String)
  | .call c (.publish p _) => some (c, p.id)
  | _ => none

/-- The file is published by the client `c` only. -/
def OneClient (c : ℕ) (id : String) (acts : List Action) : Prop :=
  ∀ x ∈ acts.filterMap Action.publisher, x.2 = id → x.1 = c

instance {c : ℕ} {id : String} : Decidable (OneClient c id acts) :=
  inferInstanceAs (Decidable (∀ x ∈ acts.filterMap Action.publisher, _ → _))

theorem OneClient.of_append {c : ℕ} {id : String} (h : OneClient c id (acts ++ [a])) :
    OneClient c id acts :=
  fun x hx => h x (by rw [List.filterMap_append]; exact List.mem_append_left _ hx)

theorem OneClient.eq {c c' : ℕ} {id : String} (h : OneClient c id acts)
    (published : .call c' (.publish p d) ∈ acts) (hp : p.id = id) : c' = c :=
  h (c', p.id) (List.mem_filterMap.2 ⟨_, published, rfl⟩) hp

theorem step_push (hstep : step D s a = some s') :
    (∃ c p, a = .client c ∧ s.client c = .publishPush p ∧
        s'.client = Function.update s.client c (.publishState p s.clock)) ∨
      ∀ server, (observe D s a).filterMap (Observation.pushedTo server) = [] := by
  obtain ⟨m, h⟩ := step_sound hstep
  by_cases push : ∃ c p, a = .client c ∧ s.client c = .publishPush p
  · obtain ⟨c, p, rfl, pc⟩ := push
    refine .inl ⟨c, p, rfl, pc, ?_⟩
    simp only [step, pc, clientStep, Option.map_some, Option.some.injEq] at hstep
    exact hstep ▸ rfl
  · refine .inr fun server => List.filterMap_eq_nil_iff.2 fun o ho => ?_
    cases h.observed ho with
    | pushed pc => exact absurd ⟨_, _, rfl, pc⟩ push
    | _ => rfl

theorem ClientPC.unpushed_clientStep {c : ℕ} {sh sh' : Shared} {pc pc' : ClientPC}
    (hstep : clientStep D c sh pc = some (sh', pc')) : pc'.unpushed.Sublist pc.unpushed := by
  cases pc <;> simp only [clientStep] at hstep
  case waitErase p r after =>
    obtain ⟨-, rfl⟩ := Prod.mk.inj (Option.some.inj hstep)
    simp [unpushed_waitReturn]
  all_goals try split at hstep
  all_goals try split_ifs at hstep
  all_goals cases hstep
  all_goals simp [unpushed]

theorem ClientPC.unpushed_clientFail {pc pc' : ClientPC} (hfail : clientFail pc = some pc') :
    pc'.unpushed = [] := by
  cases pc <;> simp only [clientFail, reduceCtorEq, Option.some.injEq] at hfail <;> subst hfail <;>
    rfl

theorem step_unpushed (hstep : step D s a = some s') (c : ℕ) :
    (∃ r, a = .call c r ∧ (s.client c).unpushed = [] ∧
        (s'.client c).unpushed = (publishes [a]).map Prod.fst) ∨
      (s'.client c).unpushed.Sublist (s.client c).unpushed := by
  rcases step_client hstep c with same | ⟨r, rfl, free, hpc⟩ | ⟨sh, rfl, hpc⟩ | ⟨rfl, hpc⟩
  · exact .inr (same ▸ List.Sublist.refl _)
  · exact .inl ⟨r, rfl, ClientPC.unpushed_of_free free, hpc ▸ ClientPC.unpushed_clientStart c r⟩
  · exact .inr (ClientPC.unpushed_clientStep hpc)
  · exact .inr (ClientPC.unpushed_clientFail hpc ▸ List.nil_sublist _)

/-- A client pushes its parcels in the order in which it publishes them. -/
theorem published_sublist {c : ℕ} {id : String} (one : OneClient c id acts)
    (hrun : run D files acts = some s) :
    (((history D files acts).filterMap (Observation.pushedTo (D.myServer c)) ++
        (s.client c).unpushed).filter (·.id = id)).Sublist
      (((publishes acts).map Prod.fst).filter (·.id = id)) := by
  refine run_invariant_under (OneClient c id)
    (fun acts s => (((history D files acts).filterMap (Observation.pushedTo (D.myServer c)) ++
        (s.client c).unpushed).filter (·.id = id)).Sublist
      (((publishes acts).map Prod.fst).filter (·.id = id)))
    (fun _ _ => OneClient.of_append) (List.nil_sublist _) ?_ hrun one
  intro acts a s s' m hrun hstep one inv h
  rw [history_snoc hrun hstep, List.filterMap_append, publishes_append, List.map_append,
    List.filter_append, List.filter_append, List.filter_append]
  rw [List.filter_append] at inv
  rcases step_push hstep with ⟨c', p, rfl, pc, hclient⟩ | silent
  · refine List.Sublist.trans ?_ (List.sublist_append_left ..)
    have report : (observe D s (.client c')).filterMap (Observation.pushedTo (D.myServer c)) =
        if D.myServer c' = D.myServer c then [p] else [] := by
      split_ifs with hs <;> simp [observe, ClientPC.observe, pc, Observation.pushedTo, hs]
    rw [report, hclient]
    rcases eq_or_ne c c' with rfl | hc
    · simpa [pc, ClientPC.unpushed] using inv
    · -- another client pushes parcels of other files
      have other : p.id ≠ id := by
        obtain ⟨r, hr, hs⟩ := (served hrun c').resolve_left (by simp [pc, ClientPC.free])
        rw [pc] at hs
        cases hs
        exact fun hp => hc (one.of_append.eq hr hp).symm
      have none : (if D.myServer c' = D.myServer c then [p] else []).filter (·.id = id) = [] := by
        split_ifs <;> simp [other]
      rwa [none, List.append_nil, Function.update_of_ne hc]
  · rw [silent, List.filter_nil, List.append_nil]
    rcases step_unpushed hstep c with ⟨r, rfl, free, begun⟩ | sub
    · rw [free, List.filter_nil, List.append_nil] at inv
      rw [begun]
      exact inv.append (List.Sublist.refl _)
    · exact (((List.Sublist.refl _).append (sub.filter _)).trans inv).trans
        (List.sublist_append_left ..)

/-! ## One collector -/

/-- The collector that steps. -/
def Action.collector : Action → Option ℕ
  | .writeSource i => some i
  | _ => none

/-- No other write collector than `i` steps. -/
def OneCollector (i : ℕ) (acts : List Action) : Prop := ∀ a ∈ acts, ∀ i' ∈ a.collector, i' = i

instance {i : ℕ} : Decidable (OneCollector i acts) :=
  inferInstanceAs (Decidable (∀ a ∈ acts, ∀ i' ∈ a.collector, i' = i))

theorem OneCollector.of_append {i : ℕ} (h : OneCollector i (acts ++ [a])) : OneCollector i acts :=
  fun b hb => h b (List.mem_append_left _ hb)

theorem OneCollector.last {i i' : ℕ} (h : OneCollector i (acts ++ [.writeSource i'])) : i' = i :=
  h (.writeSource i') (by simp) i' rfl

theorem emitted_of_one {i : ℕ} (one : OneCollector i acts) (hrun : run D files acts = some s) :
    s.writeStream.map Prod.snd = s.entrusted (.emitted i) := by
  have mine : ∀ x ∈ s.writeStream, x.1 = i := by
    refine run_invariant_under (OneCollector i) (fun _ s => ∀ x ∈ s.writeStream, x.1 = i)
      (fun _ _ => OneCollector.of_append) (by simp [Sys.init]) ?_ hrun one
    intro acts a s s' m hrun _ one inv h
    cases h
    case sourceEmit i' p rest pc =>
      intro x hx
      rcases List.mem_append.1 hx with hx | hx
      · exact inv x hx
      · obtain rfl := List.mem_singleton.1 hx
        exact one.last
    all_goals exact inv
  rw [Sys.entrusted, List.filter_eq_self.2 fun x hx => by simpa using mine x hx]

/-! ## The direct job -/

theorem direct_idle (iof : ∀ i, D.writeJob i = .iof) (hrun : run D files acts = some s) :
    s.writeInbox = [] ∧ ∀ j, s.writeSink j = .idle := by
  refine run_invariant (fun _ s => s.writeInbox = [] ∧ ∀ j, s.writeSink j = .idle)
    ⟨rfl, fun _ => rfl⟩ ?_ hrun
  rintro acts a s s' m hrun - ⟨inbox, idle⟩ h
  cases h
  case sourceEmit i p rest pc =>
    have last : (D.writeJob i).source.linked = false := by
      rw [iof]
      rfl
    exact ⟨by simp [last, inbox], idle⟩
  case deliverWrite j n p pc waiting => simp [inbox] at waiting
  case sinkRead j p pc | sinkRemove j p e pc | sinkWrite j p e pc | sinkStatus j p t pc =>
    simp [idle] at pc
  all_goals exact ⟨inbox, idle⟩

/-- What a collector of `IOFWriteJob` has popped and not written. -/
def WriteSourcePC.unwritten : WriteSourcePC → List Parcel
  | .wait => []
  | .pop _ parcels => parcels
  | .getData p rest | .write p _ rest => p :: rest
  | .deleteData _ rest | .updateStatus _ _ rest | .emit _ rest => rest

/-- A single direct collector writes the parcels in the order in which it pops them. -/
theorem direct_eq {i : ℕ} (iof : ∀ i, D.writeJob i = .iof) (one : OneCollector i acts)
    (hrun : run D files acts = some s) :
    (history D files acts).filterMap (Observation.poppedBy i) =
      (history D files acts).filterMap Observation.writes ++ (s.writeSource i).unwritten := by
  refine run_invariant_under (OneCollector i)
    (fun acts s => (history D files acts).filterMap (Observation.poppedBy i) =
      (history D files acts).filterMap Observation.writes ++ (s.writeSource i).unwritten)
    (fun _ _ => OneCollector.of_append) rfl ?_ hrun one
  intro acts a s s' m hrun hstep one inv h
  have idle := (direct_idle iof hrun).2
  have last (i : ℕ) : (D.writeJob i).source.linked = false := by
    rw [iof]
    rfl
  rw [history_snoc hrun hstep, List.filterMap_append, List.filterMap_append, inv]
  clear hstep
  cases h
  case sourcePop i' amount l p q pc more queue =>
    obtain rfl := one.last
    simp [observe, WriteSourcePC.observe, pc, more, queue, Observation.poppedBy, Observation.writes,
      WriteSourcePC.unwritten]
  case sourceNext i' amount l pc ends =>
    obtain rfl := one.last
    rw [observe_sourceNext pc ends]
    cases l <;> simp [pc, WriteSourcePC.unwritten, WriteSourcePC.next]
  case sourceEmit i' p rest pc =>
    obtain rfl := one.last
    cases rest <;> simp [observe, WriteSourcePC.observe, pc, WriteSourcePC.unwritten,
      WriteSourcePC.next]
  case sourceWait i' pc | sourceGetData i' p rest pc | sourceWrite i' p e rest pc
    | sourceDelete i' p rest pc | sourceStatus i' p t rest pc =>
    obtain rfl := one.last
    simp [observe, WriteSourcePC.observe, pc, last, Observation.poppedBy, Observation.writes,
      WriteSourcePC.unwritten, List.filterMap_cons]
  case sinkRead j p pc | sinkRemove j p e pc | sinkWrite j p e pc | sinkStatus j p t pc =>
    simp [idle] at pc
  all_goals simp [observe, ClientPC.observe, Observation.poppedBy, Observation.writes,
    List.filterMap_cons, *]

end Rhea
