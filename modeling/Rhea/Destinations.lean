import Rhea.Contents
import Rhea.Liveness

/-!
# Runs that lose a destination

When a parcel has the destination of another one as its staging file and is handled last, its sink
removes that destination (`exists_lost`).  So the condition under which every complete run leaves the
files alone is needed: when it fails, some complete run over the same parcels touches a file
(`destinationsOnly_iff`).
-/

namespace Rhea

open Transition Custody ByteFile

variable {D : Deployment} {files : Files} {acts more : List Action} {s t : Sys} {p q : Parcel}
  {d : Bytes} {c : ℕ} {z : Place} {l : List (Parcel × Bytes)}

/-! ## Publishing one parcel after the other -/

/-- Client `c` publishes the parcels of a list in turn. -/
def publishing (c : ℕ) (l : List (Parcel × Bytes)) : List Action :=
  l.flatMap fun x => .call c (.publish x.1 x.2) :: List.replicate 3 (.client c)

theorem publishes_publishing (c : ℕ) (l : List (Parcel × Bytes)) :
    publishes (publishing c l) = l := by
  induction l with
  | nil => rfl
  | cons x l ih =>
    show publishes ((.call c (.publish x.1 x.2) :: List.replicate 3 (.client c)) ++ publishing c l) = _
    rw [publishes_append, ih]
    rfl

theorem mem_publishing {a : Action} (ha : a ∈ publishing c l) :
    (∃ x ∈ l, a = .call c (.publish x.1 x.2)) ∨ a = .client c := by
  obtain ⟨x, hx, ha⟩ := List.mem_flatMap.1 ha
  rcases List.mem_cons.1 ha with rfl | ha
  · exact .inl ⟨x, hx, rfl⟩
  · exact .inr (List.eq_of_mem_replicate ha)

theorem exec_publishing (free : (s.client c).free = true) (l : List (Parcel × Bytes)) :
    ∃ t, exec (step D) s (publishing c l) = some t := by
  induction l generalizing s with
  | nil => exact ⟨s, rfl⟩
  | cons x l ih =>
    obtain ⟨p, d⟩ := x
    obtain ⟨t, ht, idle⟩ : ∃ t, exec (step D) s
        (.call c (.publish p d) :: List.replicate 3 (.client c)) = some t ∧
          (t.client c).free = true := by
      simp only [exec, step, free, if_true, Option.bind_some, List.replicate, clientStart, clientStep,
        Function.update_self, Option.map_some]
      exact ⟨_, rfl, by simp [ClientPC.free]⟩
    obtain ⟨t', ht'⟩ := ih idle
    refine ⟨t', ?_⟩
    show exec (step D) s
      ((.call c (.publish p d) :: List.replicate 3 (.client c)) ++ publishing c l) = _
    rw [exec_append, ht]
    exact ht'

theorem distinctKeys_of_nodup (calls : ∀ c r, .call c r ∈ acts → ∃ p d, r = .publish p d)
    (nodup : ((publishes acts).map fun x => x.1.key).Nodup) : DistinctKeys acts := by
  intro x _
  have once := List.nodup_iff_count_le_one.1 nodup x.1.key
  refine le_trans ?_ once
  rw [List.count, List.countP_map, publishes, List.countP_filterMap]
  refine List.countP_mono_left fun a ha uses => ?_
  cases a with
  | call c r =>
    obtain ⟨p, d, rfl⟩ := calls c r ha
    simpa [Action.uses, Call.uses] using uses
  | _ => simp [Action.uses] at uses

theorem complete_of_empty (hrun : run D files acts = some s) (empty : ∀ z, s.at z = [])
    (succeed : ∀ c, .fail c ∉ acts) : Complete D files acts := by
  intro x hx
  obtain ⟨c, hc⟩ := mem_publishes.1 hx
  have requested : x.1 ∈ (acts.flatMap Action.requested : Multiset Parcel) := by
    rw [Multiset.mem_coe, List.mem_flatMap]
    exact ⟨_, hc, by simp [Action.requested, Call.brings]⟩
  have kept : trace (step D) dropped (Sys.init files) acts = [] := by
    refine trace_eq_nil _ fun a ha s => ?_
    cases a with
    | fail c => exact absurd ha (succeed c)
    | _ => rfl
  rw [ledger_of_empty hrun empty, kept, Multiset.coe_nil, add_zero, Multiset.mem_coe] at requested
  exact Observation.mem_of_completed requested

/-! ## The parcel that is handled last -/

theorem eq_of_last (empty : ∀ z, s.at z = [])
    (last : ∀ c r, .call c r ∈ more → r = .publish p d) (hmore : exec (step D) s more = some t)
    (hq : q ∈ t.hold z) : q = p := by
  refine @exec_invariant _ _ (step D) s (fun more => ∀ c r, .call c r ∈ more → r = Call.publish p d)
    (fun _ t => ∀ z q, q ∈ t.hold z → q = p)
    (fun more a last c r hr => last c r (List.mem_append_left _ hr)) ?_ ?_ _ _ hmore last z q hq
  · intro z q hq
    simp [Sys.mem_hold, empty z] at hq
  · intro more a t t' _ last inv hstep z q hq
    obtain ⟨m, h⟩ := step_sound hstep
    rcases h.mem_of_mem hq with stays | ⟨x, rfl⟩
    · exact inv z q stays
    · rcases h.handover_cases with ⟨c, r, -, rfl, brings, -⟩ | ⟨y, hx, -⟩
      · obtain rfl := last c r (by simp)
        cases brings
        rfl
      · obtain rfl : x = some y := hx
        exact inv y q h.mem_src

theorem Step.staging_stays_none {a : Action} {m : Option Handover} (h : Step D s a t m)
    (solo : Solo Parcel.key s.hold p.key) (alone : ∀ z q, q ∈ s.hold z → q = p) (hz : p ∈ s.hold z) (late : 11 ≤ z.progress)
    (gone : s.files (D.staging p) = none) : t.files (D.staging p) = none := by
  rcases h.files_cases with same | change
  · rw [same, gone]
  · generalize t.files = fs at change
    cases change with
    | @sourceWrite i q e rest pc =>
      obtain rfl := alone _ q h.mem_src
      obtain rfl := solo.place_eq hz h.mem_src rfl rfl
      simp [Place.progress] at late
    | @sinkRemove j q e pc =>
      obtain rfl := alone _ q h.mem_src
      exact Function.update_self ..
    | @sinkWrite j q e pc =>
      obtain rfl := alone _ q h.mem_src
      exact (directWrite_of_ne _ _ (D.destination_ne_staging q).symm).trans gone

/-- A parcel that comes to a place behind the removal of its staging file has just removed it, or was
at such a place before. -/
theorem Step.removed {a : Action} {x : Option Place} (h : Step D s a t (some ⟨p, x, some z⟩))
    (late : 11 ≤ z.progress) :
    t.files (D.staging p) = none ∨ ∃ y, p ∈ s.hold y ∧ 11 ≤ y.progress := by
  have src : ∀ y, x = some y → p ∈ s.hold y := by
    rintro y rfl
    exact h.mem_src
  generalize hm : some (Handover.mk p x (some z)) = l at h
  cases h
  case call c r free => cases r <;> cases hm <;> simp [Place.progress] at late
  case sourceEmit i q rest pc =>
    obtain ⟨-, -, hz⟩ : p = q ∧ x = some (.writeSource i .emit) ∧ some z = D.emitDst i := by
      simpa using hm
    unfold Deployment.emitDst at hz
    split_ifs at hz
    cases hz
    simp [Place.progress] at late
  case sinkRemove j q e pc =>
    cases hm
    exact .inl (Function.update_self ..)
  case sinkWrite j q e pc =>
    cases hm
    exact .inr ⟨_, src _ rfl, le_rfl⟩
  all_goals cases hm
  all_goals simp [Place.progress] at late

/-- The parcel that is published last and alone leaves no file under the name of its staging file. -/
theorem staging_lost (rhea : ∀ i, D.writeJob i = .rhea) (hrun : run D files acts = some s)
    (empty : ∀ z, s.at z = []) (unused : ¬ Used p.key acts)
    (only : PublishOnly p d (acts ++ more)) (last : ∀ c r, .call c r ∈ more → r = .publish p d)
    (hmore : exec (step D) s more = some t)
    (done : .recorded p .done ∈ history D files (acts ++ more)) :
    t.files (D.staging p) = none := by
  have hall {more : List Action} {t : Sys} (h : exec (step D) s more = some t) :
      run D files (acts ++ more) = some t := (exec_append_eq_some _).2 ⟨s, hrun, h⟩
  have inv := @exec_invariant _ _ (step D) s
    (fun more => PublishOnly p d (acts ++ more) ∧ ∀ c r, .call c r ∈ more → r = Call.publish p d)
    (fun more t => (∀ z, p ∈ t.hold z → 11 ≤ z.progress → t.files (D.staging p) = none) ∧
      (.recorded p .done ∈ history D files (acts ++ more) → t.files (D.staging p) = none))
    ?_ ⟨fun z hz => ?_, fun done => ?_⟩ ?_ _ _ hmore ⟨only, last⟩
  · exact inv.2 done
  · intro more a ⟨only, last⟩
    rw [← List.append_assoc] at only
    exact ⟨only.of_append, fun c r hr => last c r (List.mem_append_left _ hr)⟩
  · simp [Sys.mem_hold, empty z] at hz
  · rw [List.append_nil] at done
    exact absurd (used_of_history hrun done rfl) unused
  · intro more a t t' hexec ⟨only, last⟩ ⟨held, done⟩ hstep
    rw [← List.append_assoc] at only ⊢
    obtain ⟨m, h⟩ := step_sound hstep
    have solo := only.of_append.solo (hall hexec)
    have alone : ∀ z q, q ∈ t.hold z → q = p := fun z q hq =>
      eq_of_last empty (fun c r hr => last c r (List.mem_append_left _ hr)) hexec hq
    have keep {z : Place} (hz : p ∈ t.hold z) (late : 11 ≤ z.progress) :
        t'.files (D.staging p) = none :=
      h.staging_stays_none solo alone hz late (held z hz late)
    constructor
    · intro z hz late
      rcases h.mem_of_mem hz with stays | ⟨x, rfl⟩
      · exact keep stays late
      · rcases h.removed late with gone | ⟨y, hy, late⟩
        · exact gone
        · exact keep hy late
    · intro ho
      rw [history_snoc (hall hexec) hstep, List.mem_append] at ho
      rcases ho with ho | ho
      · -- nothing is under way any more
        have quiet := only.of_append.quiet_of_done rhea (hall hexec) ho
        rcases h.files_cases with same | change
        · rw [same, done ho]
        · generalize t'.files = fs at change
          cases change
          all_goals exact absurd (congrArg Parcel.key (alone _ _ h.mem_src)) (quiet _ _ h.mem_src)
      · generalize hst : Observation.recorded p .done = o at ho
        cases h.observed ho with
        | @sourceStatus i _ _ _ pc =>
          simp [rhea i, WriteJob.source, rheaWriteQueueSourceTask] at hst
        | sinkStatus pc =>
          cases hst
          exact keep h.mem_src (by simp [Place.progress])
        | readSinkStatus pc =>
          cases hst
          have side := (only.of_append.eq_of_mem (hall hexec) h.mem_src rfl).2
          simp [Place.publishing] at side
        | _ => simp at hst

/-- A free client can publish parcels until nothing is on its way. -/
theorem exists_handled (served : D.Served) (hrun : run D files acts = some s)
    (free : (s.client c).free = true) (l : List (Parcel × Bytes)) :
    ∃ more t, run D files (acts ++ more) = some t ∧ (∀ z, t.at z = []) ∧ publishes more = l ∧
      (∀ c' r, .call c' r ∈ more → c' = c ∧ ∃ x ∈ l, r = .publish x.1 x.2) ∧
      ∀ c', .fail c' ∉ more := by
  obtain ⟨s₁, hs₁⟩ := exec_publishing (D := D) free l
  have hrun₁ := (exec_append_eq_some (step D)).2 ⟨s, hrun, hs₁⟩
  obtain ⟨rest, t, ht, empty, quiet⟩ := exists_drained served hrun₁
  rw [List.append_assoc] at ht
  refine ⟨_, t, ht, empty, ?_, fun c' r hr => ?_, fun c' hc => ?_⟩
  · have none : publishes rest = [] := by
      refine List.eq_nil_iff_forall_not_mem.2 fun x hx => ?_
      obtain ⟨c', hc⟩ := mem_publishes.1 hx
      exact (quiet _ hc c').1 _ rfl
    rw [publishes_append, publishes_publishing, none, List.append_nil]
  · rcases List.mem_append.1 hr with hr | hr
    · rcases mem_publishing hr with ⟨x, hx, h⟩ | h <;> cases h
      exact ⟨rfl, x, hx, rfl⟩
    · exact absurd rfl ((quiet _ hr c').1 r)
  · rcases List.mem_append.1 hc with hc | hc
    · rcases mem_publishing hc with ⟨x, -, h⟩ | h <;> cases h
    · exact (quiet _ hc c').2 rfl

/-- Of parcels with keys of their own, any one can be published after all others have been handled;
then there is no file under the name of its staging file in the end. -/
theorem exists_lost (rhea : ∀ i, D.writeJob i = .rhea) (served : D.Served)
    (distinct : DistinctKeys acts) (hp : (p, d) ∈ publishes acts) :
    ∃ acts' s', run D files acts' = some s' ∧ (publishes acts').Perm (publishes acts) ∧
      DistinctKeys acts' ∧ Complete D files acts' ∧ s'.files (D.staging p) = none := by
  obtain ⟨l₁, l₂, split⟩ := List.append_of_mem hp
  have perm : (l₁ ++ l₂ ++ [(p, d)]).Perm (publishes acts) := by
    rw [split]
    exact (List.perm_append_singleton ..).trans List.perm_middle.symm
  have nodup : ((l₁ ++ l₂ ++ [(p, d)]).map fun x => x.1.key).Nodup :=
    (perm.map _).nodup_iff.2 distinct.nodup_keys
  -- client 0 publishes the others, and client 1 the last one
  have start : run D files [] = some (.init files) := rfl
  obtain ⟨first, s₁, hs₁, empty, others, calls, succeed⟩ :=
    exists_handled (c := 0) served start rfl (l₁ ++ l₂)
  rw [List.nil_append] at hs₁
  have free : (s₁.client 1).free = true := by
    refine (Rhea.served hs₁ 1).resolve_right ?_
    rintro ⟨r, hr, -⟩
    cases (calls 1 r hr).1
  obtain ⟨more, s₂, hs₂, empty', single, calls', succeed'⟩ :=
    exists_handled served hs₁ free [(p, d)]
  have last : ∀ c r, .call c r ∈ more → r = .publish p d := by
    intro c r hr
    obtain ⟨-, x, hx, rfl⟩ := calls' c r hr
    rw [List.mem_singleton.1 hx]
  have published : publishes (first ++ more) = l₁ ++ l₂ ++ [(p, d)] := by
    rw [publishes_append, others, single]
  have distinct' : DistinctKeys (first ++ more) := by
    refine distinctKeys_of_nodup (fun c r hr => ?_) (published ▸ nodup)
    rcases List.mem_append.1 hr with hr | hr
    · obtain ⟨-, x, -, rfl⟩ := calls c r hr
      exact ⟨x.1, x.2, rfl⟩
    · exact ⟨p, d, last c r hr⟩
  have complete : Complete D files (first ++ more) := by
    refine complete_of_empty hs₂ empty' fun c hc => ?_
    rcases List.mem_append.1 hc with hc | hc
    · exact succeed c hc
    · exact succeed' c hc
  have unused : ¬ Used p.key first := by
    rintro ⟨c, r, hr, uses⟩
    obtain ⟨-, x, hx, rfl⟩ := calls c r hr
    have same : x.1.key = p.key := by simpa [Call.uses] using uses
    rw [List.map_append, List.nodup_append] at nodup
    exact nodup.2.2 _ (List.mem_map_of_mem hx) _ (List.mem_map_of_mem (List.mem_singleton_self _)) same
  have mem : (p, d) ∈ publishes (first ++ more) := by
    rw [published]
    exact List.mem_append_right _ (List.mem_singleton_self _)
  obtain ⟨s₁', hs₁', hmore⟩ := (exec_append_eq_some (step D)).1 hs₂
  obtain rfl : s₁ = s₁' := Option.some.inj (hs₁.symm.trans hs₁')
  exact ⟨_, s₂, hs₂, published ▸ perm, distinct', complete,
    staging_lost rhea hs₁ empty unused (distinct'.only mem) last hmore (complete _ mem)⟩

/-! ## The exact condition -/

/-- The write job touches no file but the destinations in a complete run when no staging file of the
run existed before it and none is a destination.  Conversely, when every server has its collectors and
this is so of every complete run over the same parcels, in whatever interleaving, then no staging file
existed before and none is a destination. -/
theorem destinationsOnly_iff (rhea : ∀ i, D.writeJob i = .rhea) (distinct : DistinctKeys acts)
    (nonempty : NonemptyRanges acts) (disjoint : DisjointRanges acts)
    (hrun : run D files acts = some s) (complete : Complete D files acts) :
    (StagingFree D files acts → DestinationsOnly D files acts s) ∧
      (D.Served → (∀ acts' s', run D files acts' = some s' →
          (publishes acts').Perm (publishes acts) → DistinctKeys acts' → Complete D files acts' →
            DestinationsOnly D files acts' s') →
        StagingFree D files acts) := by
  refine ⟨destinationsOnly_of_stagingFree rhea distinct nonempty disjoint hrun complete,
    fun served all x hx => ?_⟩
  have apart : ∀ y ∈ publishes acts, D.destination y.1 ≠ D.staging x.1 := by
    intro y hy same
    obtain ⟨acts', s', hrun', perm, distinct', complete', lost⟩ := exists_lost rhea served distinct hx
    have kept := (all acts' s' hrun' perm distinct' complete').destinations y (perm.mem_iff.2 hy)
    rw [same] at kept
    exact kept lost
  have outside : NoDestination D (D.staging x.1) acts := by
    rintro q ⟨e, hq⟩
    exact apart _ hq
  have only := all acts s hrun (.refl _) distinct complete
  exact ⟨(only.frame _ outside).symm.trans (only.staging x hx outside), apart⟩

/-- Two parcels of one file leave the other files alone; a parcel for the file `f_temp0` beside one
with this staging file does so only in some interleavings. -/
theorem destinationsOnly_iff_two :
    let p : Parcel := ⟨"f", 0, 2, 0, 0, .publish⟩
    let q (id : String) : Parcel := ⟨id, 2, 1, 0, 1, .publish⟩
    let files : Files := fun l => if l = (0, "g") then some [1] else none
    let acts (id : String) : List Action := List.flatten
      [[.call 0 (.publish p [97, 98]), .client 0, .client 0, .client 0,
          .call 0 (.publish (q id) [99]), .client 0, .client 0, .client 0],
        List.replicate 16 (.writeSource 0), .deliverWrite 0 0 :: List.replicate 4 (.writeSink 0),
        .deliverWrite 1 0 :: List.replicate 4 (.writeSink 1)]
    (∃ s, run (.single .rhea) files (acts "f") = some s ∧
      DestinationsOnly (.single .rhea) files (acts "f") s) ∧
    ¬ ∀ acts' s', run (.single .rhea) files acts' = some s' →
      (publishes acts').Perm (publishes (acts "f_temp0")) → DistinctKeys acts' →
        Complete (.single .rhea) files acts' → DestinationsOnly (.single .rhea) files acts' s' := by
  intro p q files acts
  have hrun := (Option.some_get (x := run (.single .rhea) files (acts "f"))
    (by decide +kernel)).symm
  have hrun' := (Option.some_get (x := run (.single .rhea) files (acts "f_temp0"))
    (by decide +kernel)).symm
  refine ⟨⟨_, hrun, (destinationsOnly_iff (fun _ => rfl) (by decide +kernel) (by decide +kernel)
    (by decide +kernel) hrun (by decide +kernel)).1 (by decide +kernel)⟩, fun all => ?_⟩
  have free := (destinationsOnly_iff (fun _ => rfl) (by decide +kernel) (by decide +kernel)
    (by decide +kernel) hrun' (by decide +kernel)).2 (Deployment.served_single .rhea) all
  revert free
  decide +kernel

/-- A file of the application with the name of a staging file is gone after the run. -/
theorem not_destinationsOnly :
    let p : Parcel := ⟨"f", 0, 2, 0, 0, .publish⟩
    let files : Files := fun l => if l = (0, "f_temp0") then some [1] else none
    let acts : List Action := List.flatten
      [[.call 0 (.publish p [97, 98]), .client 0, .client 0, .client 0],
        List.replicate 10 (.writeSource 0), [.deliverWrite 0 0], List.replicate 4 (.writeSink 0)]
    DistinctKeys acts ∧ NonemptyRanges acts ∧ DisjointRanges acts ∧
      Complete (.single .rhea) files acts ∧
      ∃ s, run (.single .rhea) files acts = some s ∧
        (∀ x ∈ publishes acts, (Deployment.single .rhea).destination x.1 ≠ (0, "f_temp0")) ∧
        files (0, "f_temp0") = some [1] ∧ s.files (0, "f_temp0") = none := by
  intro p files acts
  have hrun := (Option.some_get (x := run (.single .rhea) files acts) (by decide +kernel)).symm
  exact ⟨by decide +kernel, by decide +kernel, by decide +kernel, by decide +kernel, _, hrun,
    by decide +kernel, by decide +kernel, by decide +kernel⟩

end Rhea
