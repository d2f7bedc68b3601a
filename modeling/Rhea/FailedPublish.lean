import Rhea.History

/-!
# What a failed `Publish` leaves

`Publish` performs its three store operations one after the other and stops at the first that fails;
nothing that succeeded is undone.  As long as `Push` has not succeeded, no collector ever handles the
parcel (`failed_publish`); afterwards a collector can pop it although the call returns `false`.
-/

namespace Rhea

open Transition

variable {D : Deployment} {s s' : Sys} {a : Action} {m : Option Handover} {k : Key}
  {p q : Parcel} {d : Bytes} {acts : List Action}

/-- The steps of a call `Publish(parcel, data)`: each store operation succeeds or fails as the flags
say, and none is performed after one that fails. -/
def publishActions (c : ℕ) (parcel : Parcel) (data : Bytes) (put push state : Bool) : List Action :=
  .call c (.publish parcel data) ::
    if put then
      .client c ::
        if push then
          [.client c, if state then .client c else .fail c]
        else [.fail c]
    else [.fail c]

/-! ## Keys that are not published -/

/-- No parcel with key `k` is on its way to a file. -/
def Unhandled (k : Key) (s : Sys) : Prop :=
  ∀ z, z.publishing = true → ∀ q ∈ s.hold z, q.key ≠ k

/-- Whether an action is a call that publishes a parcel with key `k`. -/
def Action.publishes (k : Key) : Action → Bool
  | .call _ (.publish parcel _) => parcel.key = k
  | _ => false

/-- No call of the run publishes a parcel with key `k`. -/
def NoPublish (k : Key) (acts : List Action) : Prop := ∀ a ∈ acts, a.publishes k = false

instance : Decidable (NoPublish k acts) :=
  inferInstanceAs (Decidable (∀ a ∈ acts, a.publishes k = false))

theorem Step.unhandled (h : Step D s a s' m) (other : a.publishes k = false)
    (unhandled : Unhandled k s) : Unhandled k s' := by
  intro z hz q hq hk
  rcases h.mem_of_mem hq with before | ⟨x, rfl⟩
  · exact unhandled z hz q before hk
  · rcases h.handover_cases with ⟨c, r, y, rfl, hr, -, -⟩ | ⟨x, hsrc, -⟩
    · have hb := Call.brings_of_handover hr
      rw [hz] at hb
      cases r <;> cases hb
      simp [Action.publishes, hk] at other
    · obtain rfl : _ = some x := hsrc
      exact unhandled x (h.publishing_eq ▸ hz) q h.mem_src hk

theorem exec_unhandled (hexec : exec (step D) s acts = some s') (other : NoPublish k acts)
    (unhandled : Unhandled k s) : Unhandled k s' := by
  refine @exec_invariant Sys Action (step D) s (NoPublish k) (fun _ t => Unhandled k t) ?_ unhandled
    ?_ _ _ hexec other
  · exact fun as a h b hb => h b (List.mem_append_left _ hb)
  · intro as a t t' _ ok inv hstep
    obtain ⟨m, h⟩ := step_sound hstep
    exact h.unhandled (ok a (by simp)) inv

/-! ## The call -/

/-- The effect of the call on the stores, and what it returns. -/
theorem exec_publishActions {c : ℕ} (free : (s.client c).free = true) (put push state : Bool) :
    ∃ s', exec (step D) s (publishActions c p d put push state) = some s' ∧
      s'.client = Function.update s.client c (.returned (.publish (put && push && state))) ∧
      s'.warehouse = (if put then
        Function.update s.warehouse p.key (some (d.take p.dataSize)) else s.warehouse) ∧
      s'.writeQueue = (if put && push then Function.update s.writeQueue (D.myServer c)
        (s.writeQueue (D.myServer c) ++ [p]) else s.writeQueue) ∧
      s'.parselState = (if put && push && state then
        Function.update s.parselState p.key (some ⟨.queued, s.clock⟩) else s.parselState) ∧
      s'.writeSource = s.writeSource ∧ s'.writeSink = s.writeSink ∧ s'.writeInbox = s.writeInbox := by
  cases put <;> cases push <;> cases state <;>
    simp [publishActions, exec, step, free, clientStart, clientStep, clientFail]

/-- A call that has not pushed its parcel brings nothing on its way. -/
theorem Unhandled.of_unpushed {c : ℕ} {v : Return} (unhandled : Unhandled k s)
    (client : s'.client = Function.update s.client c (.returned v))
    (queue : s'.writeQueue = s.writeQueue) (source : s'.writeSource = s.writeSource)
    (sink : s'.writeSink = s.writeSink) (inbox : s'.writeInbox = s.writeInbox) :
    Unhandled k s' := by
  intro z hz q hq
  cases z with
  | client c' st =>
    rcases eq_or_ne c' c with rfl | hc
    · simp [Sys.mem_hold, Sys.at, client, ClientPC.held] at hq
    · apply unhandled _ hz q
      simpa [Sys.mem_hold, Sys.at, client, hc] using hq
  | writeQueue server =>
    apply unhandled (.writeQueue server) hz q
    simpa [Sys.mem_hold, Sys.at, queue] using hq
  | writeBatch i =>
    apply unhandled (.writeBatch i) hz q
    simpa [Sys.mem_hold, Sys.at, source] using hq
  | writeSource i st =>
    apply unhandled (.writeSource i st) hz q
    simpa [Sys.mem_hold, Sys.at, source] using hq
  | writeInbox =>
    apply unhandled .writeInbox hz q
    simpa [Sys.mem_hold, Sys.at, inbox] using hq
  | writeSink j st =>
    apply unhandled (.writeSink j st) hz q
    simpa [Sys.mem_hold, Sys.at, sink] using hq
  | _ => simp [Place.publishing] at hz

theorem Unhandled.not_writing (unhandled : Unhandled k s) {i : ℕ} {e : Bytes} {rest : List Parcel}
    (pc : s.writeSource i = .write q e rest) : q.key ≠ k := by
  apply unhandled (.writeSource i .write) rfl q
  simp [Sys.mem_hold, Sys.at, pc, WriteSourcePC.held]

/-- What a failed `Publish` leaves.  `PARSEL_STATE` is as before; the warehouse and the write queue are
as before up to the operations that succeeded; and if `Push` did not succeed, no collector comes to
write a parcel with the key while no call publishes one. -/
theorem failed_publish {c : ℕ} (put push state : Bool) (free : (s.client c).free = true)
    (failed : (put && push && state) = false) :
    ∃ s', exec (step D) s (publishActions c p d put push state) = some s' ∧
      s'.client c = .returned (.publish false) ∧
      s'.parselState = s.parselState ∧
      s'.warehouse = (if put then
        Function.update s.warehouse p.key (some (d.take p.dataSize)) else s.warehouse) ∧
      s'.writeQueue = (if put && push then Function.update s.writeQueue (D.myServer c)
        (s.writeQueue (D.myServer c) ++ [p]) else s.writeQueue) ∧
      ((put && push) = false → Unhandled p.key s →
        ∀ acts t, exec (step D) s' acts = some t → NoPublish p.key acts →
          ∀ i q e rest, t.writeSource i = .write q e rest → q.key ≠ p.key) := by
  obtain ⟨s', hexec, client, warehouse, queue, states, source, sink, inbox⟩ :=
    exec_publishActions (D := D) (p := p) (d := d) free put push state
  rw [failed] at client states
  refine ⟨s', hexec, ?_, states, warehouse, queue, ?_⟩
  · rw [client]
    exact Function.update_self ..
  · intro unpushed unhandled acts t hacts other i q e rest pc
    rw [unpushed] at queue
    have after : Unhandled p.key s' := unhandled.of_unpushed client queue source sink inbox
    exact (exec_unhandled hacts other after).not_writing pc

/-- `Push` fails: the bytes stay in the warehouse, and a collector that looks for work finds none. -/
theorem failed_publish_push :
    let p : Parcel := ⟨"f", 0, 1, 0, 0, .publish⟩
    let s := Sys.init fun _ => none
    ∃ s', exec (step (.single .rhea)) s (publishActions 0 p [97] true false true) = some s' ∧
      s'.writeQueue = s.writeQueue ∧ s'.warehouse p.key = some [97] ∧
      ∀ t, exec (step (.single .rhea)) s' (List.replicate 3 (.writeSource 0)) = some t →
        ∀ i q e rest, t.writeSource i = .write q e rest → q.key ≠ p.key := by
  intro p s
  have unhandled : Unhandled p.key s := fun z _ => quiet_init _ p.key z
  obtain ⟨s', hexec, -, -, warehouse, queue, quiet⟩ :=
    failed_publish (D := .single .rhea) (s := s) (c := 0) (p := p) (d := [97]) true false true rfl rfl
  refine ⟨s', hexec, queue, ?_, fun t ht => quiet rfl unhandled _ t ht (by decide +kernel)⟩
  simp [warehouse, p]

/-- The last operation fails: the call returns `false`, the bytes and the parcel stay, and a collector
writes the bytes to the file. -/
theorem not_traceless :
    let p : Parcel := ⟨"f", 0, 1, 0, 0, .publish⟩
    let s := Sys.init fun _ => none
    let call := publishActions 0 p [97] true true false
    s.warehouse p.key = none ∧ s.writeQueue 0 = [] ∧ s.parselState p.key = none ∧
      ∃ s' t, exec (step (.single .iof)) s call = some s' ∧
        s'.client 0 = .returned (.publish false) ∧
        s'.warehouse p.key = some [97] ∧ s'.writeQueue 0 = [p] ∧
        exec (step (.single .iof)) s (call ++ List.replicate 5 (.writeSource 0)) = some t ∧
        t.files (0, "f") = some [97] := by
  intro p s call
  have hcall := (Option.some_get (x := exec (step (.single .iof)) s call) (by decide +kernel)).symm
  have hrun := (Option.some_get
    (x := exec (step (.single .iof)) s (call ++ List.replicate 5 (.writeSource 0)))
    (by decide +kernel)).symm
  exact ⟨rfl, rfl, rfl, _, _, hcall, by decide +kernel, by decide +kernel, by decide +kernel, hrun,
    by decide +kernel⟩

end Rhea
