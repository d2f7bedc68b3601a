import Rhea.Requests

/-!
# The hand-over from client to collector

A published parcel is in one write queue, with one collector, or emitted by one collector, never in
two of these and never twice (`handover_exactly_once`).  Its bytes are in the warehouse from the
client's `Put` until its collector's `DeleteData`.
-/

namespace Rhea

open Transition Custody

variable {D : Deployment} {files : Files} {acts : List Action} {s s' : Sys} {a : Action}
  {m : Option Handover} {p q : Parcel} {d : Bytes}

/-! ## The bytes in the warehouse -/

/-- Whether the bytes of a published parcel at a place are in the warehouse. -/
def Place.stored : Place → Bool
  | .client _ .push | .writeQueue _ | .writeBatch _ | .writeSource _ .write
  | .writeSource _ .deleteData => true
  | _ => false

/-- While the parcel is under way, the warehouse has its bytes exactly at the places that say so. -/
theorem warehouse_of_mem (only : PublishOnly p d acts) (hrun : run D files acts = some s) {z : Place}
    (hz : p ∈ s.hold z) :
    s.warehouse p.key = if z.stored then some (d.take p.dataSize) else none := by
  refine only.place_invariant
    (fun _ z s => s.warehouse p.key = if z.stored then some (d.take p.dataSize) else none)
    ?_ ?_ hrun hz
  · intro acts a s s' m z hrun _ only h _ unmoved inv
    rw [← inv]
    rcases h.warehouse_cases p.key with same | change
    · exact same
    · generalize s'.warehouse p.key = v at change
      cases change with
      | publishPut pc key => exact absurd key (unmoved _ _ _ rfl)
      | sourceDelete pc key => exact absurd key (unmoved _ _ _ rfl)
      | readSinkPut pc key => exact absurd key (unmoved _ _ _ rfl)
      | subscribeErase pc key =>
        exact absurd key (only.of_append.not_erasing hrun (.inl ⟨_, _, pc⟩))
      | getDataErase pc key => exact absurd key (only.of_append.not_erasing hrun (.inr ⟨_, pc⟩))
  · intro acts a s s' x z hrun hstep only h before
    clear hstep
    generalize hm : some (Handover.mk p x (some z)) = l at h
    cases h
    case call c r free =>
      have hz : z.stored = false := by cases r <;> cases hm <;> rfl
      have hu : r.uses p.key = true := Call.uses_of_brings (Call.brings_of_handover hm.symm)
      rw [hz, if_neg (by decide)]
      exact warehouse_of_unused hrun (only.unused (a := .call c r) hu)
    case publishPut c e pc =>
      cases hm
      obtain ⟨-, rfl⟩ := only.of_append.put_eq hrun pc rfl
      exact Function.update_self ..
    case sourceDelete i rest pc =>
      cases hm
      exact Function.update_self ..
    case readSinkPut j e pc =>
      cases hm
      have side := (only.of_append.eq_of_mem hrun (before _ rfl).1 rfl).2
      simp [Place.publishing] at side
    case sourceEmit i q rest pc =>
      obtain ⟨rfl, rfl, hz⟩ : p = q ∧ x = some (.writeSource i .emit) ∧ some z = D.emitDst i := by
        simpa using hm
      unfold Deployment.emitDst at hz
      split_ifs at hz
      cases hz
      have held := (before _ rfl).2
      exact held
    all_goals cases hm
    -- every other move keeps the warehouse and does not change what is stored
    all_goals
      have held := (before _ rfl).2
      exact held

theorem progress_of_deleted (only : PublishOnly p d acts) (hrun : run D files acts = some s)
    (ho : .deleted p ∈ history D files acts) {z : Place} (hz : p ∈ s.hold z) : 6 ≤ z.progress := by
  refine only.progress_of_history hrun (by rfl) ?_ ho hz
  intro s a s' m h ho
  cases h.observed ho
  exact ⟨_, _, rfl, by rintro _ ⟨⟩; rfl⟩

theorem warehouse_of_deleted (only : PublishOnly p d acts) (hrun : run D files acts = some s)
    (ho : .deleted p ∈ history D files acts) : s.warehouse p.key = none := by
  refine run_invariant_under (PublishOnly p d)
    (fun acts s => .deleted p ∈ history D files acts → s.warehouse p.key = none)
    (fun _ _ => PublishOnly.of_append) (by simp) ?_ hrun only ho
  intro acts a s s' m hrun hstep only inv h ho
  have hrun' : run D files (acts ++ [a]) = some s' := (exec_snoc_eq_some _).2 ⟨s, hrun, hstep⟩
  rw [history_snoc hrun hstep, List.mem_append] at ho
  rcases ho with ho | ho
  · rcases h.warehouse_cases p.key with same | change
    · exact same.trans (inv ho)
    · generalize s'.warehouse p.key = v at change
      cases change with
      | publishPut pc key =>
        have hsrc := h.mem_src
        obtain ⟨rfl, -⟩ := only.of_append.eq_of_mem hrun hsrc key
        have := progress_of_deleted only.of_append hrun ho hsrc
        simp [Place.progress] at this
      | readSinkPut pc key =>
        have side := (only.of_append.eq_of_mem hrun h.mem_src key).2
        simp [Place.publishing] at side
      | _ => rfl
  · cases h.observed ho
    exact warehouse_of_mem only hrun' h.mem_dst

/-! ## Who has a pushed parcel -/

/-- Who can have a pushed parcel: a write queue, a collector, or what a collector has emitted. -/
inductive Custodian
  | queue (server : ℕ)
  | collector (i : ℕ)
  | emitted (i : ℕ)
  deriving DecidableEq

instance : Inhabited Custodian := ⟨.queue 0⟩

/-- The parcels a write collector has popped and not emitted: the current one and the batch. -/
def WriteSourcePC.parcels : WriteSourcePC → List Parcel
  | .wait => []
  | .pop _ parcels => parcels
  | .getData p rest | .write p _ rest | .deleteData p rest | .updateStatus p _ rest
  | .emit p rest => p :: rest

@[simp] theorem WriteSourcePC.parcels_next (l : List Parcel) : (next l).parcels = l := by
  cases l <;> rfl

/-- The parcels with a custodian, each as often as it is there. -/
def Sys.entrusted (s : Sys) : Custodian → List Parcel
  | .queue server => s.writeQueue server
  | .collector i => (s.writeSource i).parcels
  | .emitted i => (s.writeStream.filter fun e => e.1 = i).map Prod.snd

/-- How often parcels with key `k` are with a custodian. -/
def Sys.copies (s : Sys) (k : Key) (x : Custodian) : ℕ :=
  (s.entrusted x).countP fun p => p.key = k

/-- The parcels with the custodians, as tokens. -/
def Sys.custody (s : Sys) (x : Custodian) : Multiset Parcel := s.entrusted x

/-- The hand-over of a push. -/
def Deployment.push (D : Deployment) (c : ℕ) (p : Parcel) : Handover :=
  ⟨p, some (.client c .push), some (.writeQueue (D.myServer c))⟩

theorem Step.pushed_mem_observe {c : ℕ} (h : Step D s a s' (some (D.push c p))) :
    .pushed (D.myServer c) p ∈ observe D s a := by
  generalize hm : some (D.push c p) = l at h
  unfold Deployment.push at hm
  cases h
  case call c r free => cases r <;> cases hm
  case sourceEmit i q rest pc => simp at hm
  case publishPush c' q pc =>
    cases hm
    simp [observe, ClientPC.observe, pc]
  all_goals cases hm

/-- What a step means for the custodians. -/
inductive CustodyStep (D : Deployment) (s s' : Sys) : Option Handover → Prop
  | keep {l : Option Handover} (same : s'.custody = s.custody) (other : ∀ c p, l ≠ some (D.push c p)) :
    CustodyStep D s s' l
  | push (c : ℕ) (p : Parcel)
    (t : Transfer s.custody s'.custody p none (some (.queue (D.myServer c)))) :
    CustodyStep D s s' (some (D.push c p))
  | move {l : Option Handover} {q : Parcel} {x y : Custodian} (hne : x ≠ y)
    (t : Transfer s.custody s'.custody q (some x) (some y)) (other : ∀ c p, l ≠ some (D.push c p)) :
    CustodyStep D s s' l

theorem Step.custody (h : Step D s a s' m) : CustodyStep D s s' m := by
  cases h
  case publishPush c p pc =>
    refine .push c p fun z => ?_
    cases z <;> simp only [Sys.custody, Sys.entrusted, Shared.pushWrite, Function.update_apply,
      reduceCtorEq, if_false, add_zero, Option.some.injEq, Custodian.queue.injEq]
    split_ifs with hz
    · rw [hz, ← Multiset.coe_add]
      rfl
    · rw [add_zero]
  case sourcePop i amount l p q pc more queue =>
    refine .move (q := p) (x := .queue (D.writeServer i)) (y := .collector i) (by simp) ?_
      (by simp [Deployment.push])
    intro z
    cases z <;> simp only [Sys.custody, Sys.entrusted, Function.update_apply, reduceCtorEq,
      if_false, add_zero, Option.some.injEq, Custodian.queue.injEq, Custodian.collector.injEq]
    · split_ifs with hz
      · rw [hz, queue, add_comm, Multiset.singleton_add]
        rfl
      · rw [add_zero]
    · split_ifs with hz
      · rw [hz, pc, WriteSourcePC.parcels, WriteSourcePC.parcels, ← Multiset.coe_add]
        rfl
      · rw [add_zero]
  case sourceEmit i p rest pc =>
    refine .move (q := p) (x := .collector i) (y := .emitted i) (by simp) ?_
      (by simp [Deployment.push])
    intro z
    cases z <;> simp only [Sys.custody, Sys.entrusted, Function.update_apply, reduceCtorEq,
      if_false, add_zero, Option.some.injEq, Custodian.emitted.injEq, Custodian.collector.injEq]
    · split_ifs with hz
      · rw [hz, pc, WriteSourcePC.parcels_next, WriteSourcePC.parcels, add_comm,
          Multiset.singleton_add]
        rfl
      · rw [add_zero]
    · rw [List.filter_append, List.map_append, ← Multiset.coe_add]
      split_ifs with hz
      · subst hz
        simp
      · simp [Ne.symm hz]
  case sourceWait i pc | sourceNext i _ _ pc _ | sourceGetData i _ _ pc | sourceWrite i _ _ _ pc
    | sourceDelete i _ _ pc | sourceStatus i _ _ _ pc =>
    refine .keep (funext fun z => ?_) (by simp [Deployment.push])
    cases z with
    | collector i' =>
      rcases eq_or_ne i' i with rfl | hi
      · simp only [Sys.custody, Sys.entrusted, Function.update_self, pc,
          WriteSourcePC.parcels_next]
        rfl
      · simp only [Sys.custody, Sys.entrusted, Function.update_of_ne hi]
    | _ => rfl
  case call c r free => exact .keep rfl (by cases r <;> simp [Call.handover, Deployment.push])
  all_goals exact .keep rfl (by simp [Deployment.push])

theorem progress_of_pushed (only : PublishOnly p d acts) (hrun : run D files acts = some s)
    {server : ℕ} (ho : .pushed server p ∈ history D files acts) {z : Place} (hz : p ∈ s.hold z) :
    2 ≤ z.progress := by
  refine only.progress_of_history hrun (by rfl) ?_ ho hz
  intro s a s' m h ho
  cases h.observed ho
  exact ⟨_, _, rfl, by rintro _ ⟨⟩; rfl⟩

/-- Before its push no custodian has a parcel, from then on exactly one has it, once. -/
theorem oneAt_of_pushed (only : PublishOnly p d acts) (hrun : run D files acts = some s) :
    ((∀ server, .pushed server p ∉ history D files acts) → Quiet Parcel.key s.custody p.key) ∧
      ∀ server, .pushed server p ∈ history D files acts →
        ∃ x, OneAt Parcel.key s.custody p.key x := by
  refine run_invariant_under (PublishOnly p d)
    (fun acts s =>
      ((∀ server, .pushed server p ∉ history D files acts) → Quiet Parcel.key s.custody p.key) ∧
        ∀ server, .pushed server p ∈ history D files acts →
          ∃ x, OneAt Parcel.key s.custody p.key x)
    (fun _ _ => PublishOnly.of_append) ⟨fun _ => ?_, by simp⟩ ?_ hrun only
  · rintro (server | i | i) q hq <;>
      simp [Sys.custody, Sys.entrusted, Sys.init, WriteSourcePC.parcels] at hq
  · rintro acts a s s' m hrun hstep only ⟨before, after⟩ h
    rw [history_snoc hrun hstep]
    -- a push is reported exactly when the parcel is handed to the queue
    have reported {server : ℕ} (ho : .pushed server p ∈ observe D s a) :
        ∃ c, m = some (D.push c p) := by
      cases h.observed ho
      exact ⟨_, rfl⟩
    cases h.custody with
    | keep same other =>
      simp only [same, List.mem_append]
      refine ⟨fun hno => before fun server ho => hno server (.inl ho), fun server ho => ?_⟩
      rcases ho with ho | ho
      · exact after server ho
      · obtain ⟨c, hm⟩ := reported ho
        exact absurd hm (other c p)
    | @move _ q x y hne t other =>
      simp only [List.mem_append]
      refine ⟨fun hno => ?_, fun server ho => ?_⟩
      · have quiet := before fun server ho => hno server (.inl ho)
        exact quiet.of_transfer t fun hk => quiet x q (t.mem_src (by simpa using hne)) hk
      · rcases ho with ho | ho
        · obtain ⟨x', one⟩ := after server ho
          exact one.move t hne
        · obtain ⟨c, hm⟩ := reported ho
          exact absurd hm (other c p)
    | push c q t =>
      have hq : q ∈ s.hold (.client c .push) := h.mem_src
      by_cases hk : q.key = p.key
      · obtain ⟨rfl, -⟩ := only.of_append.eq_of_mem hrun hq hk
        have unpushed : ∀ server, .pushed server q ∉ history D files acts := fun server ho => by
          simpa [Place.progress] using progress_of_pushed only.of_append hrun ho hq
        refine ⟨fun hno => ?_, fun _ _ => ⟨_, (before unpushed).oneAt_of_enter t⟩⟩
        exact absurd (List.mem_append_right _ h.pushed_mem_observe) (hno _)
      · simp only [List.mem_append]
        refine ⟨fun hno => (before fun server ho => hno server (.inl ho)).of_transfer t hk,
          fun server ho => ?_⟩
        rcases ho with ho | ho
        · obtain ⟨x, one⟩ := after server ho
          exact ⟨x, one.of_tokens_eq (t.tokens_of_ne hk)⟩
        · obtain ⟨c', hm⟩ := reported ho
          simp only [Deployment.push, Option.some.injEq, Handover.mk.injEq] at hm
          exact absurd (congrArg Parcel.key hm.1) hk

/-! ## The hand-over -/

theorem fetched_eq (only : PublishOnly p d acts) (hrun : run D files acts = some s) {i : ℕ}
    {e : Bytes} {rest : List Parcel} (pc : s.writeSource i = .write q e rest)
    (hk : q.key = p.key) : e = d.take p.dataSize := by
  refine run_invariant_under (PublishOnly p d)
    (fun _ s => ∀ q e rest, s.writeSource i = .write q e rest → q.key = p.key →
      e = d.take p.dataSize)
    (fun _ _ => PublishOnly.of_append) (fun q e rest pc => by simp [Sys.init] at pc) ?_ hrun only
    q e rest pc hk
  intro acts a s s' m hrun _ only inv h q e rest pc hk
  rcases h.source_write pc with same | ⟨fetch, rfl⟩
  · exact inv q e rest same hk
  · have hq : q ∈ s.hold (.writeBatch i) := by
      simp [Sys.mem_hold, Sys.at, fetch, WriteSourcePC.batch]
    obtain ⟨rfl, -⟩ := only.of_append.eq_of_mem hrun hq hk
    rw [Shared.getData, warehouse_of_mem only.of_append hrun hq]
    rfl

/-- Exactly-once hand-over.  From its push on, a published parcel is with exactly one custodian,
once; while it is queued or popped and not fetched, the warehouse has its bytes, and these are what
its collector fetches; after its collector's `DeleteData` the warehouse has no entry for it. -/
theorem handover_exactly_once {c : ℕ} (hrun : run D files acts = some s)
    (published : .call c (.publish p d) ∈ acts)
    (distinct : acts.countP (Action.uses p.key) ≤ 1) :
    (∀ server, .pushed server p ∈ history D files acts →
      ∃ x, ∀ y, s.copies p.key y = if y = x then 1 else 0) ∧
    (∀ server, p ∈ s.writeQueue server → s.warehouse p.key = some (d.take p.dataSize)) ∧
    (∀ i, p ∈ (s.writeSource i).batch → s.warehouse p.key = some (d.take p.dataSize)) ∧
    (∀ i e rest, s.writeSource i = .write p e rest → e = d.take p.dataSize) ∧
    (.deleted p ∈ history D files acts → s.warehouse p.key = none) := by
  have only := PublishOnly.of_mem published distinct
  refine ⟨fun server ho => ?_, fun server hq => ?_, fun i hq => ?_, fun i e rest pc => ?_, ?_⟩
  · obtain ⟨x, one⟩ := (oneAt_of_pushed only hrun).2 server ho
    exact ⟨x, fun y => by rw [← one y]; exact (Multiset.coe_countP _ _).symm⟩
  · exact warehouse_of_mem only hrun (z := .writeQueue server) hq
  · exact warehouse_of_mem only hrun (z := .writeBatch i) hq
  · exact fetched_eq only hrun pc rfl
  · exact warehouse_of_deleted only hrun

/-- A parcel that is popped while another one is queued, fetched, and emitted. -/
theorem handover_exactly_once_two :
    let p : Parcel := ⟨"f", 0, 1, 0, 0, .publish⟩
    let q : Parcel := ⟨"f", 1, 1, 0, 1, .publish⟩
    let popped : List Action :=
      [.call 0 (.publish p [97]), .client 0, .client 0, .writeSource 0, .writeSource 0,
        .call 1 (.publish q [98]), .client 1, .client 1]
    let fetched := popped ++ List.replicate 3 (.writeSource 0)
    let emitted := fetched ++ List.replicate 4 (.writeSource 0)
    (∃ s, run (.single .rhea) (fun _ => none) popped = some s ∧
      (∃ x, ∀ y, s.copies p.key y = if y = x then 1 else 0) ∧
      s.warehouse p.key = some [97] ∧ s.warehouse q.key = some [98]) ∧
    (∃ s e, run (.single .rhea) (fun _ => none) fetched = some s ∧
      s.writeSource 0 = .write p e [q] ∧ e = [97]) ∧
    ∃ s, run (.single .rhea) (fun _ => none) emitted = some s ∧
      s.writeStream = [(0, p)] ∧ (∃ x, ∀ y, s.copies p.key y = if y = x then 1 else 0) ∧
      s.warehouse p.key = none := by
  intro p q popped fetched emitted
  have seen : (run (.single .rhea) (fun _ => none) popped).map (fun s =>
      (s.writeSource 0, s.writeQueue 0)) = some (.pop (1 / 10) [p], [q]) := by decide +kernel
  obtain ⟨s₁, hrun₁, at₁⟩ := Option.map_eq_some_iff.1 seen
  have seen : (run (.single .rhea) (fun _ => none) fetched).map (fun s => s.writeSource 0) =
      some (.write p [97] [q]) := by decide +kernel
  obtain ⟨s₂, hrun₂, at₂⟩ := Option.map_eq_some_iff.1 seen
  have seen : (run (.single .rhea) (fun _ => none) emitted).map (fun s => s.writeStream) =
      some [(0, p)] := by decide +kernel
  obtain ⟨s₃, hrun₃, at₃⟩ := Option.map_eq_some_iff.1 seen
  obtain ⟨one, -, batch, -⟩ := handover_exactly_once (p := p) (d := [97]) (c := 0) hrun₁
    (by decide) (by decide)
  obtain ⟨-, queued, -⟩ := handover_exactly_once (p := q) (d := [98]) (c := 1) hrun₁
    (by decide) (by decide)
  obtain ⟨-, -, -, bytes, -⟩ := handover_exactly_once (p := p) (d := [97]) (c := 0) hrun₂
    (by decide) (by decide)
  obtain ⟨one', -, -, -, gone⟩ := handover_exactly_once (p := p) (d := [97]) (c := 0) hrun₃
    (by decide) (by decide)
  simp only [Prod.mk.injEq] at at₁
  refine ⟨⟨s₁, hrun₁, one 0 (by decide +kernel), batch 0 ?_, queued 0 ?_⟩,
    ⟨s₂, _, hrun₂, at₂, bytes 0 _ _ at₂⟩, s₃, hrun₃, at₃, one' 0 (by decide +kernel),
    gone (by decide +kernel)⟩
  · rw [at₁.1]
    exact List.mem_singleton_self p
  · rw [at₁.2]
    exact List.mem_singleton_self q

end Rhea
