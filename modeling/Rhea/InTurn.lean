import Rhea.Waiting
import Rhea.Lib.OneShot

/-!
# When waiting is repeatable

Calls that wait can be made one after the other, each with one poll and one erase for each parcel,
exactly as far as their parcels can be taken in turn (`exec_waitOnce`, `exec_inTurn`).  So a sequence
of calls that is answered at once has no parcel twice and none that has been waited for; and a client
that stands in a `Wait` for one of the parcels could take its entry away before them.  This gives the
exact conditions for repeated waiting (`waits_at_once`).
-/

namespace Rhea

open Transition OneShot

variable {D : Deployment} {files : Files} {acts : List Action} {s s' : Sys} {k : Key} {c : ℕ}
  {p : Parcel} {r : Call} {after : AfterWait} {calls : List (ℕ × Call)} {pc : ClientPC}

/-! ## The calls made in turn -/

/-- The call with one poll and one erase for each parcel. -/
def waitOnce (c : ℕ) (r : Call) : List Action :=
  .call c r :: List.replicate (2 * r.waits.length) (.client c)

/-- The calls one after the other, each with one poll and one erase for each parcel. -/
def inTurn (calls : List (ℕ × Call)) : List Action := calls.flatMap fun x => waitOnce x.1 x.2

/-- The state after a client has waited for some parcels and stands at `pc`. -/
def Sys.waited (s : Sys) (c : ℕ) (parcels : List Parcel) (pc : ClientPC) : Sys :=
  { s with
    parselState := erased s.parselState (parcels.map Parcel.key)
    client := Function.update s.client c pc }

theorem Sys.waited_waited (s : Sys) (c : ℕ) (l l' : List Parcel) (pc pc' : ClientPC) :
    (s.waited c l pc).waited c l' pc' = s.waited c (l ++ l') pc' := by
  simp [Sys.waited, erased_append]

theorem exec_wait {r : ParcelState} (pc : s.client c = .waitGet p after)
    (found : s.parselState p.key = some r) (completed : r.Done) :
    exec (step D) s [.client c, .client c] = some (s.waited c [p] (waitReturn p r after)) := by
  have poll : step D s (.client c) =
      some { s with client := Function.update s.client c (.waitErase p r after) } := by
    simp only [step, pc, clientStep, found]
    rw [if_pos completed]
    rfl
  simp only [exec, poll, Option.bind_some]
  simp [step, clientStep, Sys.waited, erased_singleton]

theorem exec_poll (pc : s.client c = .waitGet p after)
    (pending : ¬ ∃ r, s.parselState p.key = some r ∧ r.Done) (n : ℕ) :
    exec (step D) s (List.replicate n (.client c)) = some s := by
  have poll : step D s (.client c) = some s := by
    have again : { s with client := Function.update s.client c (.waitGet p after) } = s := by
      rw [← pc, Function.update_eq_self]
    simp only [step, pc, clientStep]
    cases found : s.parselState p.key with
    | none => exact congrArg some again
    | some r =>
      have : ¬ r.status = .done := fun h => pending ⟨r, found, h⟩
      simp only [this, if_false]
      exact congrArg some again
  induction n with
  | zero => rfl
  | succ n ih => rw [List.replicate_succ, exec, poll, Option.bind_some, ih]

theorem replicate_two_mul_cons (c : ℕ) (p : Parcel) (l : List Parcel) :
    List.replicate (2 * (p :: l).length) (Action.client c) =
      [.client c, .client c] ++ List.replicate (2 * l.length) (.client c) := by
  rw [List.length_cons, Nat.mul_succ, Nat.add_comm, List.replicate_add]
  rfl

theorem exec_waitAll {l : List Parcel} {states : List ParcelState}
    (pc : s.client c = waitAllNext l states)
    (takes : Takes ParcelState.Done s.parselState (l.map Parcel.key)) :
    ∃ results, exec (step D) s (List.replicate (2 * l.length) (.client c)) =
        some (s.waited c l (.returned (.waitAll (states ++ results)))) ∧
      List.Forall₂ (fun p st => s.parselState p.key = some st ∧ st.Done) l results := by
  induction l generalizing s states with
  | nil =>
    refine ⟨[], ?_, .nil⟩
    have same : s.waited c [] (.returned (.waitAll states)) = s := by
      have returned : s.client c = .returned (.waitAll states) := pc
      simp only [Sys.waited, List.map_nil, erased_nil, ← returned, Function.update_eq_self]
    simp [exec, same]
  | cons p l ih =>
    obtain ⟨⟨r, found, completed⟩, later⟩ := takes
    have first := exec_wait (D := D) pc found completed
    have pc' : (s.waited c [p] (waitReturn p r (.waitAll l states))).client c =
        waitAllNext l (states ++ [r]) := Function.update_self ..
    obtain ⟨results, rest, ordered⟩ := ih pc' later
    refine ⟨r :: results, ?_, .cons ⟨found, completed⟩ ?_⟩
    · rw [replicate_two_mul_cons, exec_append, first, Option.bind_some, rest, Sys.waited_waited]
      simp
    · -- what is recorded for a later parcel was not erased by the first wait
      refine ordered.imp ?_
      rintro q st ⟨hq, done⟩
      refine ⟨?_, done⟩
      simp only [Sys.waited, erased] at hq
      split_ifs at hq
      exact hq

theorem exec_waitAll_stuck {l : List Parcel} {states : List ParcelState}
    (pc : s.client c = waitAllNext l states)
    (stuck : ¬ Takes ParcelState.Done s.parselState (l.map Parcel.key)) :
    ∃ s', exec (step D) s (List.replicate (2 * l.length) (.client c)) = some s' ∧
      (s'.client c).free = false := by
  induction l generalizing s states with
  | nil => exact absurd trivial stuck
  | cons p l ih =>
    by_cases found : ∃ r, s.parselState p.key = some r ∧ r.Done
    · obtain ⟨r, hr, completed⟩ := found
      have first := exec_wait (D := D) pc hr completed
      have pc' : (s.waited c [p] (waitReturn p r (.waitAll l states))).client c =
          waitAllNext l (states ++ [r]) := Function.update_self ..
      obtain ⟨s', rest, busy⟩ := ih pc' fun later => stuck ⟨⟨r, hr, completed⟩, later⟩
      refine ⟨s', ?_, busy⟩
      rw [replicate_two_mul_cons, exec_append, first, Option.bind_some, rest]
    · exact ⟨s, exec_poll pc found _, by rw [pc]; rfl⟩

/-- One call is answered at once exactly when its parcels can be taken in turn. -/
theorem exec_waitOnce {r : Call} (free : (s.client c).free = true) (waits : r.onlyWaits = true) :
    (Takes ParcelState.Done s.parselState (r.waits.map Parcel.key) →
      ∃ v, exec (step D) s (waitOnce c r) = some (s.waited c r.waits (.returned v)) ∧
        Answered s r v) ∧
    (¬ Takes ParcelState.Done s.parselState (r.waits.map Parcel.key) →
      ∃ s', exec (step D) s (waitOnce c r) = some s' ∧ (s'.client c).free = false) := by
  have enter : step D s (.call c r) =
      some { s with client := Function.update s.client c (clientStart r) } := by
    simp [step, free]
  generalize hs : { s with client := Function.update s.client c (clientStart r) } = s₁ at enter
  have pc : s₁.client c = clientStart r := by rw [← hs]; exact Function.update_self ..
  have cell : s₁.parselState = s.parselState := by rw [← hs]
  have waited (l : List Parcel) (pc : ClientPC) : s₁.waited c l pc = s.waited c l pc := by
    simp [← hs, Sys.waited]
  rw [waitOnce, exec, enter, Option.bind_some, ← cell]
  cases r with
  | wait p =>
    refine ⟨fun takes => ?_, fun stuck => ?_⟩
    · obtain ⟨⟨st, found, completed⟩, -⟩ := takes
      refine ⟨.wait st, ?_, cell ▸ found, completed⟩
      exact (exec_wait pc found completed).trans (congrArg some (waited ..))
    · refine ⟨s₁, exec_poll pc (fun found => stuck ⟨found, trivial⟩) _, by rw [pc]; rfl⟩
  | waitAll l =>
    refine ⟨fun takes => ?_, exec_waitAll_stuck pc⟩
    obtain ⟨results, done, ordered⟩ := exec_waitAll (D := D) pc takes
    refine ⟨.waitAll results, ?_, by rw [cell] at ordered; exact ordered⟩
    rw [← waited]
    exact done
  | _ => simp [Call.onlyWaits] at waits

theorem waitKeys_append (calls later : List (ℕ × Call)) :
    waitKeys (calls ++ later) = waitKeys calls ++ waitKeys later := by
  rw [waitKeys, List.flatMap_append, List.map_append]
  rfl

theorem waitKeys_singleton (c : ℕ) (r : Call) : waitKeys [(c, r)] = r.waits.map Parcel.key := by
  simp [waitKeys]

theorem callsConcerning_inTurn (keys : List Key) (calls : List (ℕ × Call)) :
    (callsConcerning keys (inTurn calls)).Sublist calls := by
  induction calls with
  | nil => exact List.Sublist.refl []
  | cons x calls ih =>
    obtain ⟨c, r⟩ := x
    have none : callsConcerning keys (List.replicate (2 * r.waits.length) (.client c)) = [] := by
      refine List.filterMap_eq_nil_iff.2 fun a ha => ?_
      rw [List.eq_of_mem_replicate ha]
    show (callsConcerning keys (.call c r :: List.replicate _ _ ++ inTurn calls)).Sublist _
    rw [← List.singleton_append, List.append_assoc, callsConcerning_append, callsConcerning_append,
      none, List.nil_append]
    by_cases hr : r.concerns keys = true
    · simpa [callsConcerning, hr] using ih
    · simpa [callsConcerning, hr] using ih.cons _

theorem Serves.ne_publishState (serves : Serves r pc) (quiet : ∀ p d, r ≠ .publish p d)
    (p : Parcel) (t : ℕ) : pc ≠ .publishState p t := by
  rintro rfl
  cases serves
  exact quiet _ _ rfl

theorem unrecorded_of_serves (quiet : ∀ p d, r ≠ .publish p d) (n : ℕ)
    (inv : (s.client c).free = true ∨ Serves r (s.client c)) (q : Parcel) (st : TaskStatus) :
    .recorded q st ∉ trace (step D) (observe D) s (List.replicate n (.client c)) := by
  have other (p : Parcel) (t : ℕ) : s.client c ≠ .publishState p t := by
    obtain free | serves := inv
    · intro pc
      simp [pc, ClientPC.free] at free
    · exact serves.ne_publishState quiet p t
  induction n generalizing s with
  | zero => simp [trace]
  | succ n ih =>
    rw [List.replicate_succ, trace, List.mem_append]
    rintro (here | later)
    · show False
      generalize hpc : s.client c = pc at other
      cases pc with
      | publishState p t => exact other p t rfl
      | getDataGet p d =>
        simp only [observe, hpc, ClientPC.observe] at here
        split at here <;> simp at here
      | _ => simp [observe, hpc, ClientPC.observe] at here
    · cases hstep : step D s (.client c) with
      | none => simp [hstep] at later
      | some t =>
        rw [hstep, Option.elim_some] at later
        have next : (t.client c).free = true ∨ Serves r (t.client c) := by
          obtain same | ⟨r', h, -⟩ | ⟨_, -, hpc⟩ | ⟨h, -⟩ := step_client hstep c
          · rwa [same]
          · cases h
          · obtain free | serves := inv
            · cases pc : s.client c <;> rw [pc] at free hpc <;>
                simp [ClientPC.free, clientStep] at free hpc
            · exact serves.clientStep hpc
          · cases h
        refine ih next (fun p t pc => ?_) later
        obtain free | serves := next
        · simp [pc, ClientPC.free] at free
        · exact serves.ne_publishState quiet p t pc

theorem unrecorded_waitOnce (waits : r.onlyWaits = true) (q : Parcel) (st : TaskStatus) :
    .recorded q st ∉ trace (step D) (observe D) s (waitOnce c r) := by
  rw [waitOnce, trace, List.mem_append]
  rintro (here | later)
  · simp [observe] at here
  · cases hstep : step D s (.call c r) with
    | none => simp [hstep] at later
    | some t =>
      rw [hstep, Option.elim_some] at later
      obtain ⟨_, h⟩ := step_sound hstep
      refine unrecorded_of_serves (r := r) ?_ _ (h.started ▸ serves_clientStart r) q st later
      rintro p d rfl
      simp [Call.onlyWaits] at waits

theorem exec_inTurn (free : ∀ x ∈ calls, (s.client x.1).free = true)
    (waits : ∀ x ∈ calls, x.2.onlyWaits = true)
    (takes : Takes ParcelState.Done s.parselState (waitKeys calls)) :
    ∃ t, exec (step D) s (inTurn calls) = some t ∧
      t.parselState = erased s.parselState (waitKeys calls) ∧
      (∀ c, (s.client c).free = true → (t.client c).free = true) ∧
      ∀ q st, .recorded q st ∉ trace (step D) (observe D) s (inTurn calls) := by
  induction calls generalizing s with
  | nil => exact ⟨s, rfl, (erased_nil _).symm, fun c hc => hc, by simp [inTurn, trace]⟩
  | cons x calls ih =>
    obtain ⟨c, r⟩ := x
    rw [← List.singleton_append, waitKeys_append, waitKeys_singleton, takes_append] at takes
    have only := waits _ List.mem_cons_self
    obtain ⟨v, hexec, -⟩ := (exec_waitOnce (D := D) (free _ List.mem_cons_self) only).1 takes.1
    have stays (c' : ℕ) (hc' : (s.client c').free = true) :
        ((s.waited c r.waits (.returned v)).client c').free = true := by
      by_cases h : c' = c
      · subst h
        simp [Sys.waited, ClientPC.free]
      · simpa [Sys.waited, h] using hc'
    obtain ⟨t, ht, cell, idle, quiet⟩ := ih (s := s.waited c r.waits (.returned v))
      (fun x hx => stays _ (free x (List.mem_cons_of_mem _ hx)))
      (fun x hx => waits x (List.mem_cons_of_mem _ hx)) takes.2
    have acts : inTurn ((c, r) :: calls) = waitOnce c r ++ inTurn calls := rfl
    rw [acts]
    refine ⟨t, ?_, ?_, fun c' hc' => idle c' (stays c' hc'), fun q st => ?_⟩
    · rw [exec_append, hexec]
      exact ht
    · rw [cell, ← List.singleton_append, waitKeys_append, erased_append, waitKeys_singleton]
      rfl
    · rw [trace_append (step D) (observe D) _ hexec, List.mem_append]
      rintro (here | later)
      · exact unrecorded_waitOnce only q st here
      · exact quiet q st later

/-- When the parcels of a sequence of calls cannot be taken in turn, there is a first call at which
this shows. -/
theorem exists_first_stuck {cell : Key → Option ParcelState}
    (stuck : ¬ Takes ParcelState.Done cell (waitKeys calls)) :
    ∃ before x later, calls = before ++ x :: later ∧ Takes ParcelState.Done cell (waitKeys before) ∧
      ¬ Takes ParcelState.Done (erased cell (waitKeys before)) (x.2.waits.map Parcel.key) := by
  induction calls using List.reverseRecOn with
  | nil => exact absurd trivial stuck
  | append_singleton calls x ih =>
    by_cases takes : Takes ParcelState.Done cell (waitKeys calls)
    · refine ⟨calls, x, [], rfl, takes, fun last => stuck ?_⟩
      rw [waitKeys_append, takes_append, waitKeys_singleton]
      exact ⟨takes, last⟩
    · obtain ⟨before, y, later, rfl, rest⟩ := ih takes
      exact ⟨before, y, later ++ [x], by simp, rest⟩

/-- Calls that are answered at once can be made in turn, also after other processes have acted. -/
theorem takes_of_atOnce {first : List Action} {t : Sys} (h : AtOnce D s calls)
    (waits : ∀ x ∈ calls, x.2.onlyWaits = true) (hexec : exec (step D) s first = some t)
    (free : ∀ x ∈ calls, (t.client x.1).free = true)
    (unasked : callsConcerning (waitKeys calls) first = [])
    (unrecorded : ∀ q st, .recorded q st ∉ trace (step D) (observe D) s first) :
    Takes ParcelState.Done t.parselState (waitKeys calls) := by
  by_contra stuck
  obtain ⟨before, ⟨c, r⟩, later, rfl, takes, fails⟩ := exists_first_stuck stuck
  have sub {x : ℕ × Call} (hx : x ∈ before) : x ∈ before ++ (c, r) :: later :=
    List.mem_append_left _ hx
  have mem : (c, r) ∈ before ++ (c, r) :: later := by simp
  obtain ⟨t₁, ht₁, cell, idle, quiet⟩ := exec_inTurn (D := D) (fun x hx => free x (sub hx))
    (fun x hx => waits x (sub hx)) takes
  rw [← cell] at fails
  obtain ⟨s', hs', busy⟩ :=
    (exec_waitOnce (D := D) (idle c (free _ mem)) (waits _ mem)).2 fails
  have acts : first ++ (inTurn before ++ waitOnce c r) =
      (first ++ inTurn before) ++ .call c r :: List.replicate (2 * r.waits.length) (.client c) := by
    simp [waitOnce]
  have hrun : exec (step D) s (first ++ (inTurn before ++ waitOnce c r)) = some s' := by
    rw [exec_append, hexec, Option.bind_some, exec_append, ht₁]
    exact hs'
  have und : Undisturbed D s (before ++ (c, r) :: later)
      (first ++ (inTurn before ++ waitOnce c r)) := by
    constructor
    · rw [callsConcerning_append, unasked, List.nil_append]
      have turns : inTurn before ++ waitOnce c r = inTurn (before ++ [(c, r)]) := by simp [inTurn]
      have start : (before ++ [(c, r)]).Sublist (before ++ (c, r) :: later) :=
        List.Sublist.append_left (by simp) before
      rw [turns]
      exact ((callsConcerning_inTurn _ _).trans start).subperm
    · intro q st hq
      rw [trace_append (step D) (observe D) _ hexec, trace_append (step D) (observe D) _ ht₁,
        List.mem_append, List.mem_append] at hq
      obtain hq | hq | hq := hq
      · exact absurd hq (unrecorded q st)
      · exact absurd hq (quiet q st)
      · exact absurd hq (unrecorded_waitOnce (waits _ mem) q st)
  obtain ⟨v, returned, -⟩ := (h _ s' hrun und).2 _ c r _ acts mem (by simp)
    (List.count_replicate_self ..)
  rw [returned] at busy
  cases busy

theorem callsConcerning_replicate (keys : List Key) (n c : ℕ) :
    callsConcerning keys (List.replicate n (.client c)) = [] := by
  refine List.filterMap_eq_nil_iff.2 fun a ha => ?_
  rw [List.eq_of_mem_replicate ha]

theorem exec_erase (standing : p ∈ (s.client c).polls.head?)
    (ready : ∃ st, s.parselState p.key = some st ∧ st.Done) :
    ∃ n t, exec (step D) s (List.replicate n (.client c)) = some t ∧ t.parselState p.key = none ∧
      ∀ c' ≠ c, t.client c' = s.client c' := by
  obtain ⟨st, found, done⟩ := ready
  have polling {s : Sys} {after : AfterWait} (pc : s.client c = .waitGet p after)
      (found : s.parselState p.key = some st) :
      ∃ t, exec (step D) s (List.replicate 2 (.client c)) = some t ∧ t.parselState p.key = none ∧
        ∀ c' ≠ c, t.client c' = s.client c' :=
    ⟨_, exec_wait pc found done, by simp [Sys.waited, erased],
      fun c' hc' => Function.update_of_ne hc' ..⟩
  cases pc : s.client c with
  | waitGet q after =>
    obtain rfl : q = p := by simpa [pc, ClientPC.polls] using standing
    exact ⟨2, polling pc found⟩
  | waitErase q v after =>
    obtain rfl : q = p := by simpa [pc, ClientPC.polls] using standing
    refine ⟨1, { s with
      toShared := s.toShared.eraseState q
      client := Function.update s.client c (waitReturn q v after) }, ?_, ?_, ?_⟩
    · simp [exec, step, pc, clientStep]
    · simp
    · exact fun c' hc' => Function.update_of_ne hc' ..
  | subscribePush q d =>
    obtain rfl : q = p := by simpa [pc, ClientPC.polls] using standing
    let s₁ : Sys := { s with
      toShared := s.toShared.pushRead (D.myServer c) q
      client := Function.update s.client c (.waitGet q (.subscribe d)) }
    obtain ⟨t, ht, gone, others⟩ := polling (s := s₁) (Function.update_self ..) found
    refine ⟨3, t, ?_, gone, fun c' hc' => (others c' hc').trans (Function.update_of_ne hc' ..)⟩
    rw [List.replicate_succ, exec]
    have push : step D s (.client c) = some s₁ := by
      simp only [step, pc, clientStep]
      rfl
    rw [push]
    exact ht
  | _ => simp [pc, ClientPC.polls] at standing

/-! ## When waiting is repeatable -/

/-- A sequence of calls on completed parcels is answered at once when no parcel occurs in it twice,
none has been waited for since it was completed, and no call in progress is still to wait for one of
them; `since p.key` is what was reported since the completion of `p`.  Conversely, when free clients
are answered at once, then the parcels are distinct, none has been waited for, and no client stands
in a `Wait` for one of them. -/
theorem waits_at_once (since : Key → List Observation) (hrun : run D files acts = some s)
    (waits : ∀ x ∈ calls, x.2.onlyWaits = true)
    (completed : ∀ x ∈ calls, ∀ p ∈ x.2.waits, ∃ pre q,
      history D files acts = pre ++ .recorded q .done :: since p.key ∧ q.key = p.key ∧
        ∀ q' st, .recorded q' st ∈ since p.key → q'.key ≠ p.key) :
    ((waitKeys calls).Nodup ∧ (∀ k ∈ waitKeys calls, ∀ q v, .waited q v ∈ since k → q.key ≠ k) ∧
        (∀ c, ∀ p ∈ (s.client c).polls, p.key ∉ waitKeys calls) →
      AtOnce D s calls) ∧
    ((∀ x ∈ calls, (s.client x.1).free = true) → AtOnce D s calls →
      (waitKeys calls).Nodup ∧ (∀ k ∈ waitKeys calls, ∀ q v, .waited q v ∈ since k → q.key ≠ k) ∧
        ∀ c, ∀ p ∈ (s.client c).polls.head?, p.key ∉ waitKeys calls) := by
  have ready {k : Key} (hk : k ∈ waitKeys calls) :
      (∃ st, s.parselState k = some st ∧ st.Done) ↔
        ∀ q v, .waited q v ∈ since k → q.key ≠ k := by
    obtain ⟨p, hp, rfl⟩ := List.mem_map.1 hk
    obtain ⟨x, hx, hp⟩ := List.mem_flatMap.1 hp
    obtain ⟨pre, q, hist, hq, unrecorded⟩ := completed x hx p hp
    have status := status_of_history hrun p.key
    rw [hist, List.foldl_append, List.foldl_cons, Observation.cell, if_pos hq] at status
    have last := foldl_cell_eq_some unrecorded (some .done) .done
    rw [← status, Option.map_eq_some_iff] at last
    simpa using last
  constructor
  · rintro ⟨distinct, unwaited, alone⟩
    exact atOnce_of_alone waits (fun k hk => (ready hk).2 (unwaited k hk)) distinct alone
  · intro free h
    have takes := takes_of_atOnce h waits (rfl : exec (step D) s [] = some s) free rfl
      (by simp [trace])
    rw [takes_iff] at takes
    obtain ⟨distinct, found⟩ := takes
    refine ⟨distinct, fun k hk => (ready hk).1 (found k hk), fun c p standing hp => ?_⟩
    -- the client that stands in the `Wait` erases the entry before the calls are made
    obtain ⟨n, t, ht, gone, others⟩ := exec_erase (D := D) standing (found _ hp)
    have busy : (s.client c).free = false := by
      rw [Bool.eq_false_iff]
      intro idle
      rw [ClientPC.polls_of_free idle] at standing
      cases standing
    have stays : ∀ x ∈ calls, (t.client x.1).free = true := by
      intro x hx
      have ne : x.1 ≠ c := by
        intro hc
        rw [← hc, free x hx] at busy
        cases busy
      rw [others _ ne]
      exact free x hx
    obtain ⟨r, -, serves⟩ := (served hrun c).resolve_left (by simp [busy])
    have quiet (p : Parcel) (d : Bytes) : r ≠ .publish p d := by
      rintro rfl
      generalize s.client c = pc at serves standing
      cases serves <;> cases standing
    have again := takes_of_atOnce h waits ht stays (callsConcerning_replicate ..)
      (unrecorded_of_serves quiet n (.inr serves))
    obtain ⟨st, entry, -⟩ := ((takes_iff ..).1 again).2 _ hp
    rw [gone] at entry
    cases entry

/-- Three completed parcels can be waited for once each, in two calls of two clients and an empty
one. -/
theorem waits_at_once_three :
    let p : Parcel := ⟨"f", 0, 1, 0, 0, .publish⟩
    let q : Parcel := ⟨"f", 1, 1, 0, 1, .publish⟩
    let r : Parcel := ⟨"g", 0, 1, 0, 2, .publish⟩
    let acts : List Action := List.flatten
      [[.call 0 (.publish p [97]), .client 0, .client 0, .client 0],
        [.call 0 (.publish q [98]), .client 0, .client 0, .client 0],
        [.call 0 (.publish r [99]), .client 0, .client 0, .client 0],
        List.replicate 20 (.writeSource 0)]
    ∃ s, run (.single .iof) (fun _ => none) acts = some s ∧
      AtOnce (.single .iof) s [(1, .waitAll [p, q]), (2, .wait r), (1, .waitAll [])] := by
  intro p q r acts
  have last : (run (.single .iof) (fun _ => none) acts).map (fun s => s.client 0) =
      some (.returned (.publish true)) := by decide +kernel
  obtain ⟨s, hrun, client⟩ := Option.map_eq_some_iff.1 last
  have idle (c : ℕ) : (s.client c).polls = [] := by
    by_cases hc : c = 0
    · rw [hc, client]
      rfl
    · obtain free | ⟨r', hr', -⟩ := served hrun c
      · exact ClientPC.polls_of_free free
      · simp [acts, hc] at hr'
  -- the collector handles the parcels one after the other
  obtain ⟨pre, handled⟩ : ∃ pre, history (.single .iof) (fun _ => none) acts = pre ++
      [.written p, .deleted p, .recorded p .done, .written q, .deleted q, .recorded q .done,
        .written r, .deleted r, .recorded r .done] :=
    ⟨(history (.single .iof) (fun _ => none) acts).take 12, by decide +kernel⟩
  let since (k : Key) : List Observation :=
    if k = p.key then [.written q, .deleted q, .recorded q .done, .written r, .deleted r,
      .recorded r .done]
    else if k = q.key then [.written r, .deleted r, .recorded r .done] else []
  have later (k : Key) (y : Parcel) (st : TaskStatus) (hy : .recorded y st ∈ since k) :
      y.key ≠ k := by
    simp only [since] at hy
    split_ifs at hy with first second
    · simp at hy
      obtain ⟨rfl, -⟩ | ⟨rfl, -⟩ := hy <;> rw [first] <;> decide
    · simp at hy
      rw [hy.1, second]
      decide
    · simp at hy
  refine ⟨s, hrun, (waits_at_once since hrun (by decide) ?_).1 ⟨by decide, ?_, by simp [idle]⟩⟩
  · intro x hx y hy
    have hy : y = p ∨ y = q ∨ y = r := by
      simp only [List.mem_cons, List.not_mem_nil, or_false] at hx
      obtain rfl | rfl | rfl := hx <;> simp [Call.waits] at hy <;> tauto
    have done : ∃ pre, history (.single .iof) (fun _ => none) acts =
        pre ++ .recorded y .done :: since y.key := by
      rw [handled]
      obtain rfl | rfl | rfl := hy
      · exact ⟨pre ++ [.written p, .deleted p], by simp [since]⟩
      · exact ⟨pre ++ [.written p, .deleted p, .recorded p .done, .written q, .deleted q],
          by simp [since, Parcel.key, p, q]⟩
      · exact ⟨pre ++ [.written p, .deleted p, .recorded p .done, .written q, .deleted q,
          .recorded q .done, .written r, .deleted r], by simp [since, Parcel.key, p, q, r]⟩
    obtain ⟨pre, hist⟩ := done
    exact ⟨pre, y, hist, rfl, later y.key⟩
  · intro k hk y v hy
    simp only [since] at hy
    split_ifs at hy <;> simp at hy

/-- After `Subscribe` has returned, another `Wait` on its parcel does not return. -/
theorem not_atOnce_after_subscribe :
    let p : Parcel := ⟨"f", 0, 1, 0, 0, .subscribe⟩
    let acts : List Action := List.flatten
      [[.call 0 (.subscribe p [0]), .client 0], List.replicate 5 (.readSource 0),
        [.deliverRead 0 0, .readSink 0, .readSink 0, .readSink 0],
        [.client 0, .client 0, .client 0, .client 0]]
    history (.single .rhea) (fun _ => some [97]) acts =
        [.requested 0 (.subscribe p [0]), .recorded p .inProgress, .fetched p [97],
          .recorded p .done, .waited p ⟨.done, 0⟩, .subscribed p true [97]] ∧
      ∃ s, run (.single .rhea) (fun _ => some [97]) acts = some s ∧
        s.client 0 = .returned (.subscribe true [97]) ∧
        ¬ AtOnce (.single .rhea) s [(0, .wait p)] := by
  intro p acts
  refine ⟨by decide +kernel, ?_⟩
  have seen : ((run (.single .rhea) (fun _ => some [97]) acts).bind fun s =>
      (exec (step (.single .rhea)) s (waitOnce 0 (.wait p))).map fun s' =>
        (s.client 0, s'.client 0)) =
      some (.returned (.subscribe true [97]), .waitGet p .application) := by decide +kernel
  obtain ⟨s, hrun, hs⟩ := Option.bind_eq_some_iff.1 seen
  obtain ⟨s₁, hexec, hs₁⟩ := Option.map_eq_some_iff.1 hs
  simp only [Prod.mk.injEq] at hs₁
  refine ⟨s, hrun, hs₁.1, fun h => ?_⟩
  have und : Undisturbed (.single .rhea) s [(0, .wait p)] (waitOnce 0 (.wait p)) :=
    ⟨(callsConcerning_inTurn _ [(0, .wait p)]).subperm,
      fun q st hq => absurd hq (unrecorded_waitOnce rfl q st)⟩
  obtain ⟨v, returned, -⟩ := (h _ s₁ hexec und).2 [] 0 (.wait p) _ rfl (by simp) (by simp) rfl
  rw [hs₁.2] at returned
  cases returned

end Rhea
