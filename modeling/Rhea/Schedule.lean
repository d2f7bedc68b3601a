import Rhea.Fairness

/-!
# Every run continues to a fair execution

After any run, a scheduler that gives every client, every worker and every delivery its turn again
and again makes a fair execution without further calls (`exists_fair`), provided that every server to
which a client pushes has a collector.  So the hypotheses of the liveness results can be met after
every run.
-/

namespace Rhea

open Transition Custody

variable {D : Deployment} {files : Files} {acts : List Action} {s s' : Sys} {a : Action}
  {m : Option Handover} {p : Parcel}

/-- Every server to which a client pushes has a write collector and a read collector. -/
structure Deployment.Served (D : Deployment) : Prop where
  write : ∀ c, ∃ i, D.writeServer i = D.myServer c
  read : ∀ c, ∃ i, D.readServer i = D.myServer c

theorem Deployment.served_single (job : WriteJob) : (Deployment.single job).Served :=
  ⟨fun _ => ⟨0, rfl⟩, fun _ => ⟨0, rfl⟩⟩

/-- The actions that get their turn: the operations of the clients and of the workers, and the
deliveries of the first waiting parcel; `r` says of which kind. -/
def turnOf (r i : ℕ) : Action :=
  match r with
  | 0 => .client i
  | 1 => .writeSource i
  | 2 => .deliverWrite i 0
  | 3 => .writeSink i
  | 4 => .readSource i
  | 5 => .deliverRead i 0
  | _ => .readSink i

/-- An enumeration of all turns. -/
def turn (k : ℕ) : Action := turnOf (k % 7) (k / 7)

theorem turn_mul_add {r : ℕ} (i : ℕ) (h : r < 7) : turn (7 * i + r) = turnOf r i := by
  have hmod : (7 * i + r) % 7 = r := by omega
  have hdiv : (7 * i + r) / 7 = i := by omega
  rw [turn, hmod, hdiv]

theorem turn_ne (k c : ℕ) : (∀ r, turn k ≠ .call c r) ∧ turn k ≠ .fail c := by
  unfold turn turnOf
  split <;> simp

/-! ## Sinks -/

/-- What the sinks of the two jobs have in common: the program point `pc`, the parcels that wait for
them, their action `work`, and a delivery to the sink. -/
structure Sink {ρ : Type} (D : Deployment) (pc : Sys → ρ) (idle : ρ) (left : ρ → ℕ)
    (inbox : Sys → List Parcel) (work deliver : Action) (delivery : Action → Prop) : Prop where
  keeps : ∀ s a s', step D s a = some s' → pc s ≠ idle → ¬ a = work → pc s' = pc s
  waits : ∀ s a s', step D s a = some s' → pc s = idle → ¬ delivery a → pc s' = idle
  works : ∀ s s', step D s work = some s' → left (pc s') < left (pc s)
  enabled : ∀ s, pc s ≠ idle → (step D s work).isSome
  takes : ∀ s, pc s = idle → inbox s ≠ [] → (step D s deliver).isSome
  delivers : delivery deliver
  stays : ∀ s a s', step D s a = some s' → inbox s ≠ [] → ¬ delivery a → inbox s' ≠ []

namespace Sink

variable {ρ : Type} {pc : Sys → ρ} {idle : ρ} {left : ρ → ℕ} {inbox : Sys → List Parcel}
  {work deliver : Action} {delivery : Action → Prop}
  (sink : Sink D pc idle left inbox work deliver delivery)
  {e : Behaviour D files} {n : ℕ}

include sink

theorem goesOn (turns : ∀ N, ∃ n ≥ N, (step D (e.state n) work).isSome → e.act n = work)
    (busy : pc (e.state n) ≠ idle) : ∃ m ≥ n, e.act m = work ∧ pc (e.state m) ≠ idle := by
  by_contra never
  push Not at never
  have busy' : ∀ m, n ≤ m → pc (e.state m) ≠ idle := by
    intro m hm
    induction m, hm using Nat.le_induction with
    | base => exact busy
    | succ m hm ih =>
      have other : ¬ e.act m = work := fun ha => ih (never m hm ha)
      exact (sink.keeps _ _ _ (e.next m) ih other).symm ▸ ih
  obtain ⟨m, hm, ha⟩ := turns n
  exact busy' m hm (never m hm (ha (sink.enabled _ (busy' m hm))))

theorem exists_idle (turns : ∀ N, ∃ n ≥ N, (step D (e.state n) work).isSome → e.act n = work) :
    ∃ m ≥ n, pc (e.state m) = idle := by
  by_contra never
  push Not at never
  have falls : ∀ k ≥ n, ∀ m, k ≤ m → left (pc (e.state m)) ≤ left (pc (e.state k)) := by
    intro k hk m hm
    induction m, hm using Nat.le_induction with
    | base => exact le_rfl
    | succ m hm ih =>
      by_cases ha : e.act m = work
      · have := sink.works _ _ (ha ▸ e.next m)
        omega
      · rwa [sink.keeps _ _ _ (e.next m) (never m (by omega)) ha]
  -- by induction on what is left to do
  have endless : ∀ l, ∀ k ≥ n, left (pc (e.state k)) = l → False := by
    intro l
    induction l using Nat.strong_induction_on with
    | _ l ih =>
      intro k hk hl
      obtain ⟨m, hm, ha, -⟩ := sink.goesOn turns (never k hk)
      have less := sink.works _ _ (ha ▸ e.next m)
      have := falls k hk m hm
      exact ih _ (by omega) (m + 1) (by omega) rfl
  exact endless _ n le_rfl rfl

/-- When the sink and the delivery to it get their turns, some waiting parcel is delivered. -/
theorem delivered (turns : ∀ N, ∃ n ≥ N, (step D (e.state n) work).isSome → e.act n = work)
    (given : ∀ N, ∃ n ≥ N, (step D (e.state n) deliver).isSome → e.act n = deliver)
    (waiting : inbox (e.state n) ≠ []) : ∃ m ≥ n, delivery (e.act m) := by
  by_contra none
  push Not at none
  have waiting' : ∀ m, n ≤ m → inbox (e.state m) ≠ [] := by
    intro m hm
    induction m, hm using Nat.le_induction with
    | base => exact waiting
    | succ m hm ih => exact sink.stays _ _ _ (e.next m) ih (none m hm)
  obtain ⟨k, hk, hidle⟩ := sink.exists_idle (n := n) turns
  have idle' : ∀ m, k ≤ m → pc (e.state m) = idle := by
    intro m hm
    induction m, hm using Nat.le_induction with
    | base => exact hidle
    | succ m hm ih => exact sink.waits _ _ _ (e.next m) ih (none m (by omega))
  obtain ⟨m, hm, ha⟩ := given k
  have hdeliver := ha (sink.takes _ (idle' m hm) (waiting' m (by omega)))
  exact none m (by omega) (hdeliver ▸ sink.delivers)

end Sink

/-- The operations left to a write sink. -/
def WriteSinkPC.left : WriteSinkPC → ℕ
  | .idle => 0
  | .read _ => 4
  | .remove _ _ => 3
  | .write _ _ => 2
  | .updateStatus _ _ => 1

/-- The operations left to a read sink. -/
def ReadSinkPC.left : ReadSinkPC → ℕ
  | .idle => 0
  | .read _ => 3
  | .putData _ _ => 2
  | .updateStatus _ _ => 1

theorem writeSink_sink (j : ℕ) :
    Sink D (fun s => s.writeSink j) .idle WriteSinkPC.left (fun s => s.writeInbox) (.writeSink j)
      (.deliverWrite j 0) (fun a => ∃ j k, a = .deliverWrite j k) where
  keeps s a s' hstep busy ha := by
    obtain ⟨m, h⟩ := step_sound hstep
    cases h
    case deliverWrite pc _ => exact Function.update_of_ne (by rintro rfl; exact busy pc) ..
    case sinkRead | sinkRemove | sinkWrite | sinkStatus =>
      exact Function.update_of_ne (by rintro rfl; exact ha rfl) ..
    all_goals rfl
  waits s a s' hstep hidle ha := by
    obtain ⟨m, h⟩ := step_sound hstep
    cases h
    case deliverWrite => exact absurd ⟨_, _, rfl⟩ ha
    case sinkRead pc | sinkRemove pc | sinkWrite pc | sinkStatus pc =>
      refine (Function.update_of_ne ?_ ..).trans hidle
      rintro rfl
      simp [hidle] at pc
    all_goals exact hidle
  works s s' hstep := by
    obtain ⟨m, h⟩ := step_sound hstep
    cases h with
    | sinkRead pc | sinkRemove pc | sinkWrite pc | sinkStatus pc =>
      simp [pc, WriteSinkPC.left]
  enabled s busy := by
    cases pc : s.writeSink j <;> simp [pc, step, writeSinkStep] at busy ⊢
  takes s hidle waiting := by
    cases hin : s.writeInbox with
    | nil => exact absurd hin waiting
    | cons p l =>
      have first : s.writeInbox[0]? = some p := by rw [hin]; rfl
      simp only [step, hidle, first, Option.isSome_some]
  delivers := ⟨j, 0, rfl⟩
  stays s a s' hstep waiting ha := by
    obtain ⟨m, h⟩ := step_sound hstep
    cases h
    case deliverWrite => exact absurd ⟨_, _, rfl⟩ ha
    case sourceEmit i p rest pc =>
      cases hl : (D.writeJob i).source.linked <;> simp [waiting]
    all_goals exact waiting

theorem readSink_sink (j : ℕ) :
    Sink D (fun s => s.readSink j) .idle ReadSinkPC.left (fun s => s.readInbox) (.readSink j)
      (.deliverRead j 0) (fun a => ∃ j k, a = .deliverRead j k) where
  keeps s a s' hstep busy ha := by
    obtain ⟨m, h⟩ := step_sound hstep
    cases h
    case deliverRead pc _ => exact Function.update_of_ne (by rintro rfl; exact busy pc) ..
    case readSinkRead | readSinkPut | readSinkStatus =>
      exact Function.update_of_ne (by rintro rfl; exact ha rfl) ..
    all_goals rfl
  waits s a s' hstep hidle ha := by
    obtain ⟨m, h⟩ := step_sound hstep
    cases h
    case deliverRead => exact absurd ⟨_, _, rfl⟩ ha
    case readSinkRead pc | readSinkPut pc | readSinkStatus pc =>
      refine (Function.update_of_ne ?_ ..).trans hidle
      rintro rfl
      simp [hidle] at pc
    all_goals exact hidle
  works s s' hstep := by
    obtain ⟨m, h⟩ := step_sound hstep
    cases h with
    | readSinkRead pc | readSinkPut pc | readSinkStatus pc => simp [pc, ReadSinkPC.left]
  enabled s busy := by
    cases pc : s.readSink j <;> simp [pc, step, readSinkStep] at busy ⊢
  takes s hidle waiting := by
    cases hin : s.readInbox with
    | nil => exact absurd hin waiting
    | cons p l =>
      have first : s.readInbox[0]? = some p := by rw [hin]; rfl
      simp only [step, hidle, first, Option.isSome_some]
  delivers := ⟨j, 0, rfl⟩
  stays s a s' hstep waiting ha := by
    obtain ⟨m, h⟩ := step_sound hstep
    cases h
    case deliverRead => exact absurd ⟨_, _, rfl⟩ ha
    case readEmit => simp
    all_goals exact waiting

/-! ## The queues -/

/-- A server whose queues have a parcel is one to which some client pushes. -/
theorem pushes_of_queued (hrun : run D files acts = some s) (server : ℕ) :
    (s.writeQueue server ≠ [] → ∃ c, D.myServer c = server) ∧
      (s.readQueue server ≠ [] → ∃ c, D.myServer c = server) := by
  refine run_invariant (fun _ s => (s.writeQueue server ≠ [] → ∃ c, D.myServer c = server) ∧
    (s.readQueue server ≠ [] → ∃ c, D.myServer c = server))
    ⟨fun h => absurd rfl h, fun h => absurd rfl h⟩ ?_ hrun
  rintro acts a s s' m - - ⟨write, read⟩ h
  cases h
  case publishPush c p pc =>
    refine ⟨fun full => ?_, read⟩
    by_cases hs : D.myServer c = server
    · exact ⟨c, hs⟩
    · exact write (by simpa [Function.update_of_ne (Ne.symm hs)] using full)
  case sourcePop i amount l p q pc more queue =>
    refine ⟨fun full => ?_, read⟩
    by_cases hs : D.writeServer i = server
    · subst hs
      exact write (by simp [queue])
    · exact write (by simpa [Function.update_of_ne (Ne.symm hs)] using full)
  case subscribePush c p d pc =>
    refine ⟨write, fun full => ?_⟩
    by_cases hs : D.myServer c = server
    · exact ⟨c, hs⟩
    · exact read (by simpa [Function.update_of_ne (Ne.symm hs)] using full)
  case asyncPush c p pc =>
    refine ⟨write, fun full => ?_⟩
    by_cases hs : D.myServer c = server
    · exact ⟨c, hs⟩
    · exact read (by simpa [Function.update_of_ne (Ne.symm hs)] using full)
  case readPop i amount l p q pc more queue =>
    refine ⟨write, fun full => ?_⟩
    by_cases hs : D.readServer i = server
    · subst hs
      exact read (by simp [queue])
    · exact read (by simpa [Function.update_of_ne (Ne.symm hs)] using full)
  all_goals exact ⟨write, read⟩

theorem isSome_step_client {c : ℕ} (busy : (s.client c).free = false) :
    (step D s (.client c)).isSome := by
  cases pc : s.client c <;> simp [pc, ClientPC.free] at busy <;>
    simp only [step, pc, clientStep, Option.isSome_map, Option.isSome_some]
  case waitGet =>
    split
    · split_ifs <;> rfl
    · rfl
  case getDataGet => split <;> rfl

/-- Every run continues to a fair execution in which no further call is made and no further operation
fails. -/
theorem exists_fair (served : D.Served) (hrun : run D files acts = some s) :
    ∃ e : Behaviour D files, e.acts acts.length = acts ∧ Fair e ∧ NoCallsAfter e acts.length ∧
      ∀ n ≥ acts.length, ∀ c, e.act n ≠ .fail c := by
  obtain ⟨e₀, picked, turns₀⟩ := exists_scheduled turn (fun s : Sys => Action.tick s.clock)
    (fun s => rfl : ∀ s : Sys, step D s (.tick s.clock) = some s) s
  obtain ⟨e, hacts, tail⟩ := Execution.exists_append hrun e₀
  have turns (k N : ℕ) : ∃ n ≥ N, (step D (e.state n) (turn k)).isSome → e.act n = turn k := by
    obtain ⟨n, hn, h⟩ := turns₀ k N
    refine ⟨acts.length + n, by omega, ?_⟩
    rwa [(tail n).1, (tail n).2]
  have turnsOf {r : ℕ} (i : ℕ) (hr : r < 7) (N : ℕ) :
      ∃ n ≥ N, (step D (e.state n) (turnOf r i)).isSome → e.act n = turnOf r i := by
    have := turns (7 * i + r) N
    rwa [turn_mul_add i hr] at this
  have quiet : ∀ n ≥ acts.length, ∀ c, (∀ r, e.act n ≠ .call c r) ∧ e.act n ≠ .fail c := by
    intro n hn c
    obtain ⟨k, rfl⟩ := Nat.exists_eq_add_of_le hn
    rw [(tail k).2]
    rcases picked k with h | ⟨l, h⟩ <;> rw [h]
    · simp
    · exact turn_ne l c
  refine ⟨e, hacts, ?_, fun n hn c => (quiet n hn c).1, fun n hn c => (quiet n hn c).2⟩
  constructor
  case client =>
    intro n c ready
    obtain ⟨m, hm, h⟩ := turnsOf (r := 0) c (by omega) n
    exact ⟨m, hm, .inl (h (isSome_step_client (ready m hm).1))⟩
  case writeSource =>
    intro n i _
    obtain ⟨m, hm, h⟩ := turnsOf (r := 1) i (by omega) n
    exact ⟨m, hm, h rfl⟩
  case writeCollected =>
    intro n server full
    obtain ⟨c, rfl⟩ := (pushes_of_queued (e.exec_acts n) server).1 full
    obtain ⟨i, hi⟩ := served.write c
    refine ⟨i, hi, fun m _ _ => ?_⟩
    obtain ⟨k, hk, h⟩ := turnsOf (r := 1) i (by omega) m
    exact ⟨k, hk, h rfl⟩
  case writeDelivered =>
    intro n waiting
    exact (writeSink_sink 0).delivered (turnsOf (r := 3) 0 (by omega))
      (turnsOf (r := 2) 0 (by omega)) waiting
  case writeSink =>
    intro n j busy
    obtain ⟨m, hm, ha, -⟩ := (writeSink_sink j).goesOn (turnsOf (r := 3) j (by omega)) busy
    exact ⟨m, hm, ha⟩
  case readSource =>
    intro n i _
    obtain ⟨m, hm, h⟩ := turnsOf (r := 4) i (by omega) n
    exact ⟨m, hm, h rfl⟩
  case readCollected =>
    intro n server full
    obtain ⟨c, rfl⟩ := (pushes_of_queued (e.exec_acts n) server).2 full
    obtain ⟨i, hi⟩ := served.read c
    refine ⟨i, hi, fun m _ _ => ?_⟩
    obtain ⟨k, hk, h⟩ := turnsOf (r := 4) i (by omega) m
    exact ⟨k, hk, h rfl⟩
  case readDelivered =>
    intro n waiting
    exact (readSink_sink 0).delivered (turnsOf (r := 6) 0 (by omega))
      (turnsOf (r := 5) 0 (by omega)) waiting
  case readSink =>
    intro n j busy
    obtain ⟨m, hm, ha, -⟩ := (readSink_sink j).goesOn (turnsOf (r := 6) j (by omega)) busy
    exact ⟨m, hm, ha⟩

/-- After every run the clients and the workers can go on, without further calls and without failing
operations, until nothing is on its way. -/
theorem exists_drained (served : D.Served) (hrun : run D files acts = some s) :
    ∃ more s', run D files (acts ++ more) = some s' ∧ (∀ z, s'.at z = []) ∧
      ∀ a ∈ more, ∀ c, (∀ r, a ≠ .call c r) ∧ a ≠ .fail c := by
  obtain ⟨e, hacts, fair, ends, kept⟩ := exists_fair served hrun
  obtain ⟨M, hM, rest⟩ := fair.settles ends
  obtain ⟨more, hmore⟩ := e.acts_prefix hM
  rw [hacts] at hmore
  refine ⟨more, e.state M, hmore ▸ e.exec_acts M, (rest M le_rfl).2, fun a ha c => ?_⟩
  obtain ⟨pre, post, rfl⟩ := List.append_of_mem ha
  rw [← List.append_assoc] at hmore
  obtain ⟨-, rfl⟩ := e.acts_split hmore.symm
  have later : acts.length ≤ (acts ++ pre).length := by simp
  exact ⟨ends _ later c, kept _ later c⟩

end Rhea
