import Rhea.Steps

/-!
# What a step does to the tokens and to the stores

A step either hands over one parcel (`Step.transfer`) or leaves every parcel where it is
(`Step.hold_eq`).  The remaining lemmas say, for each store, which steps change an entry and to
what; a step that is not listed leaves the entry as it is.
-/

namespace Rhea

open Custody ByteFile

variable {D : Deployment} {s s' : Sys} {a : Action} {m : Option Handover}

/-! ## Tokens -/

theorem coe_eraseIdx_add {α : Type*} {l : List α} {n : ℕ} {p : α} (h : l[n]? = some p) :
    (↑(l.eraseIdx n) + {p} : Multiset α) = ↑l := by
  obtain ⟨hn, rfl⟩ := List.getElem?_eq_some_iff.1 h
  rw [add_comm, Multiset.singleton_add, Multiset.cons_coe, Multiset.coe_eq_coe]
  exact List.getElem_cons_eraseIdx_perm hn

theorem ClientPC.held_of_free {pc : ClientPC} (h : pc.free = true) (st : ClientStage) :
    pc.held st = [] := by
  cases pc <;> first | rfl | simp [ClientPC.free] at h

theorem hold_call {c : ℕ} {r : Call} (free : (s.client c).free = true) (z : Place) :
    Sys.hold { s with client := Function.update s.client c (clientStart r) } z =
      s.hold z + (r.handover c).elim 0 fun m => if some z = m.dst then {m.parcel} else 0 := by
  cases z
  case client c' st =>
    rcases eq_or_ne c' c with rfl | hc
    · have before : s.hold (.client c' st) = 0 := by
        simp only [Sys.hold, Sys.at, ClientPC.held_of_free free, Multiset.coe_nil]
      rw [before, zero_add]
      simp only [Sys.hold, Sys.at, Function.update_self]
      cases r with
      | waitAll l => simp [clientStart, Call.handover, ClientPC.held_waitAllNext]
      | _ => cases st <;> simp [clientStart, ClientPC.held, Call.handover]
    · simp only [Sys.hold, Sys.at, Function.update_of_ne hc]
      cases r <;> simp [Call.handover, hc]
  all_goals cases r <;> simp [Sys.hold, Sys.at, Call.handover]

/-- Every step with a hand-over moves exactly that parcel. -/
theorem Step.transfer {m : Handover} (h : Step D s a s' (some m)) :
    Transfer s.hold s'.hold m.parcel m.src m.dst := by
  intro z
  generalize hm : some m = l at h
  -- the places of the process that steps and the shared lists it touches change, by evaluation
  cases h
  case call c r free =>
    rw [hold_call free, ← hm]
    cases r <;> cases hm <;> simp
  all_goals cases hm
  case deliverWrite j n p pc waiting =>
    cases z
    all_goals simp only [Sys.hold, Sys.at, Function.update_apply, Option.some.injEq, reduceCtorEq,
      if_false, if_true, Place.writeSink.injEq, coe_eraseIdx_add waiting, add_zero]
    all_goals split_ifs <;> simp_all [WriteSinkPC.held]
  case deliverRead j n p pc waiting =>
    cases z
    all_goals simp only [Sys.hold, Sys.at, Function.update_apply, Option.some.injEq, reduceCtorEq,
      if_false, if_true, Place.readSink.injEq, coe_eraseIdx_add waiting, add_zero]
    all_goals split_ifs <;> simp_all [ReadSinkPC.held]
  case sourceEmit i p rest pc =>
    cases hl : (D.writeJob i).source.linked <;> cases rest <;> cases z
    all_goals simp only [Sys.hold, Sys.at, Function.update_apply, Deployment.emitDst, hl,
      Option.some.injEq, reduceCtorEq, if_false, if_true, Bool.false_eq_true,
      Place.writeSource.injEq]
    all_goals try split_ifs
    all_goals simp_all [WriteSourcePC.next, WriteSourcePC.batch, WriteSourcePC.held,
      ← Multiset.coe_add]
  case readEmit i p rest pc =>
    cases rest <;> cases z
    all_goals simp only [Sys.hold, Sys.at, Function.update_apply, Option.some.injEq, reduceCtorEq,
      if_false, if_true, Place.readEmit.injEq]
    all_goals try split_ifs
    all_goals simp_all [ReadSourcePC.next, ReadSourcePC.batch, ReadSourcePC.held,
      ← Multiset.coe_add]
  all_goals cases z
  all_goals simp only [Sys.hold, Sys.at, Function.update_apply, Option.some.injEq, reduceCtorEq,
    if_false, Place.client.injEq, Place.writeSource.injEq, Place.writeSink.injEq,
    Place.readSink.injEq, Place.writeQueue.injEq, Place.writeBatch.injEq, Place.readQueue.injEq,
    Place.readBatch.injEq, Place.readEmit.injEq, Shared.putData, Shared.pushWrite, Shared.pushRead,
    Shared.deleteData, Shared.updateParcelStatus]
  all_goals try split_ifs
  all_goals simp_all [ClientPC.held, WriteSourcePC.batch, WriteSourcePC.held, WriteSinkPC.held,
    ReadSourcePC.batch, ReadSourcePC.held, ReadSinkPC.held, ← Multiset.coe_add,
    ← Multiset.cons_coe, ← Multiset.cons_zero]

theorem Step.hold_eq (h : Step D s a s' none) : s'.hold = s.hold := by
  funext z
  generalize hm : (none : Option Handover) = l at h
  cases h
  case call c r free =>
    rw [hold_call free, ← hm, Option.elim_none, add_zero]
  all_goals cases hm
  case waitErase c p r after pc =>
    cases z
    case client c' st =>
      rcases eq_or_ne c' c with rfl | hc
      · simp only [Sys.hold, Sys.at, Function.update_self, ClientPC.held_waitReturn, pc]
        rfl
      · simp only [Sys.hold, Sys.at, Function.update_of_ne hc]
    all_goals rfl
  case sourceNext i amount l pc ends =>
    cases l <;> cases z
    all_goals simp only [Sys.hold, Sys.at, Function.update_apply]
    all_goals try split_ifs
    all_goals simp_all [WriteSourcePC.next, WriteSourcePC.batch, WriteSourcePC.held]
  case readNext i amount l pc ends =>
    cases l <;> cases z
    all_goals simp only [Sys.hold, Sys.at, Function.update_apply]
    all_goals try split_ifs
    all_goals simp_all [ReadSourcePC.next, ReadSourcePC.batch, ReadSourcePC.held]
  all_goals cases z
  all_goals simp only [Sys.hold, Sys.at, Function.update_apply, Shared.deleteData,
    Shared.updateParcelStatus]
  all_goals try split_ifs
  all_goals simp_all [ClientPC.held, WriteSourcePC.batch, WriteSourcePC.held, ReadSourcePC.batch,
    ReadSourcePC.held]

/-- A hand-over is a request that brings in its parcel, or it moves the parcel somewhere else. -/
theorem Step.handover_cases {m : Handover} (h : Step D s a s' (some m)) :
    (∃ c r y, a = .call c r ∧ r.handover c = some m ∧ m.src = none ∧ m.dst = some y) ∨
      ∃ x, m.src = some x ∧ some x ≠ m.dst := by
  generalize hm : some m = l at h
  cases h
  case call c r free =>
    left
    cases r <;> cases hm <;> exact ⟨c, _, _, rfl, rfl, rfl, rfl⟩
  case sourceEmit i p rest pc =>
    cases hm
    right
    refine ⟨_, rfl, ?_⟩
    unfold Deployment.emitDst
    split_ifs <;> simp
  all_goals cases hm
  all_goals exact .inr ⟨_, rfl, by simp⟩

theorem Step.mem_src {p : Parcel} {x : Place} {y : Option Place}
    (h : Step D s a s' (some ⟨p, some x, y⟩)) : p ∈ s.hold x := by
  rcases h.handover_cases with ⟨_, _, _, _, _, hsrc, _⟩ | ⟨x', hsrc, hne⟩
  · simp at hsrc
  · obtain rfl := Option.some.inj hsrc
    exact h.transfer.mem_src hne

theorem Step.mem_dst {p : Parcel} {x : Option Place} {y : Place}
    (h : Step D s a s' (some ⟨p, x, some y⟩)) : p ∈ s'.hold y := by
  refine h.transfer.mem_dst ?_
  rcases h.handover_cases with ⟨_, _, _, _, _, hsrc, _⟩ | ⟨x', hsrc, hne⟩
  · exact hsrc ▸ by simp
  · exact hsrc ▸ hne.symm

theorem Step.mem_of_mem (h : Step D s a s' m) {z : Place} {q : Parcel} (hq : q ∈ s'.hold z) :
    q ∈ s.hold z ∨ ∃ x, m = some ⟨q, x, some z⟩ := by
  cases m with
  | none => exact .inl (h.hold_eq ▸ hq)
  | some m =>
    rcases h.transfer.mem_of_mem hq with hq | ⟨rfl, hz⟩
    · exact .inl hq
    · exact .inr ⟨m.src, by rw [hz]⟩

theorem Step.mem_or_moved (h : Step D s a s' m) {z : Place} {q : Parcel} (hq : q ∈ s.hold z) :
    q ∈ s'.hold z ∨ ∃ y, m = some ⟨q, some z, y⟩ := by
  cases m with
  | none => exact .inl (h.hold_eq ▸ hq)
  | some m =>
    rcases h.transfer.mem_or_moved hq with hq | ⟨rfl, hz⟩
    · exact .inl hq
    · exact .inr ⟨m.dst, by rw [hz]⟩

/-- A step keeps a key solo unless it requests the key while a parcel with it is around. -/
theorem Step.solo {k : Key} (h : Step D s a s' m) (solo : Solo Parcel.key s.hold k)
    (fresh : ∀ c r m, a = .call c r → r.handover c = some m → m.parcel.key = k →
      Quiet Parcel.key s.hold k) :
    Solo Parcel.key s'.hold k := by
  cases m with
  | none => exact h.hold_eq ▸ solo
  | some m =>
    have t := h.transfer
    rcases h.handover_cases with ⟨c, r, y, ha, hr, hsrc, hdst⟩ | ⟨x, hsrc, hne⟩
    · rw [hsrc, hdst] at t
      exact solo.enter t (fresh c r m ha hr)
    · rw [hsrc] at t
      exact solo.move t hne

/-- Where a parcel with a solo key is after a step: the step did not move that key, or it moved this
parcel here. -/
theorem Step.place_cases {k : Key} (h : Step D s a s' m) (before : Solo Parcel.key s.hold k)
    (after : Solo Parcel.key s'.hold k) {z : Place} {q : Parcel} (hq : q ∈ s'.hold z)
    (hk : q.key = k) :
    (q ∈ s.hold z ∧ ∀ p x y, m = some ⟨p, x, y⟩ → p.key ≠ k) ∨ ∃ x, m = some ⟨q, x, some z⟩ := by
  rcases h.mem_of_mem hq with hz | moved
  · by_cases hm : ∃ p x y, m = some ⟨p, x, y⟩ ∧ p.key = k
    · obtain ⟨p, x, y, rfl, hp⟩ := hm
      cases y with
      | none =>
        rcases h.handover_cases with ⟨_, _, _, _, _, _, hdst⟩ | ⟨x, hsrc, -⟩
        · simp at hdst
        · obtain rfl : _ = some x := hsrc
          subst hp
          exact absurd hk (before.quiet_of_leave h.transfer z q hq)
      | some y =>
        obtain rfl := after.place_eq hq h.mem_dst hk hp
        obtain rfl := after.eq_of_mem hq h.mem_dst hk hp
        exact .inr ⟨x, rfl⟩
    · exact .inl ⟨hz, fun p x y hm' hp => hm ⟨p, x, y, hm', hp⟩⟩
  · exact .inr moved

/-- The place to which a parcel moves from a place. -/
inductive Place.Next : Place → Place → Prop
  | put {c} : Next (.client c .put) (.client c .push)
  | push {c server} : Next (.client c .push) (.writeQueue server)
  | pop {server i} : Next (.writeQueue server) (.writeBatch i)
  | take {i} : Next (.writeBatch i) (.writeSource i .write)
  | write {i} : Next (.writeSource i .write) (.writeSource i .deleteData)
  | deleteData {i} : Next (.writeSource i .deleteData) (.writeSource i .updateStatus)
  | updateStatus {i} : Next (.writeSource i .updateStatus) (.writeSource i .emit)
  | emit {i} : Next (.writeSource i .emit) .writeInbox
  | deliver {j} : Next .writeInbox (.writeSink j .read)
  | sinkRead {j} : Next (.writeSink j .read) (.writeSink j .remove)
  | sinkRemove {j} : Next (.writeSink j .remove) (.writeSink j .write)
  | sinkWrite {j} : Next (.writeSink j .write) (.writeSink j .updateStatus)
  | request {c server} : Next (.client c .request) (.readQueue server)
  | readPop {server i} : Next (.readQueue server) (.readBatch i)
  | readStatus {i} : Next (.readBatch i) (.readEmit i)
  | readEmit {i} : Next (.readEmit i) .readInbox
  | readDeliver {j} : Next .readInbox (.readSink j .read)
  | readSinkRead {j} : Next (.readSink j .read) (.readSink j .putData)
  | readSinkPut {j} : Next (.readSink j .putData) (.readSink j .updateStatus)

theorem Step.next {p : Parcel} {x y : Place} (h : Step D s a s' (some ⟨p, some x, some y⟩)) :
    x.Next y := by
  generalize hm : some (Handover.mk p (some x) (some y)) = l at h
  cases h
  case call c r free => cases r <;> cases hm
  case sourceEmit i q rest pc =>
    obtain ⟨-, rfl, hy⟩ : p = q ∧ x = .writeSource i .emit ∧ some y = D.emitDst i := by
      simpa using hm
    unfold Deployment.emitDst at hy
    split_ifs at hy
    exact Option.some.inj hy ▸ .emit
  all_goals cases hm
  all_goals constructor

/-- Whether a place is on the way of a published parcel. -/
def Place.publishing : Place → Bool
  | .client _ .put | .client _ .push | .writeQueue _ | .writeBatch _ | .writeSource _ _
  | .writeInbox | .writeSink _ _ => true
  | .client _ .request | .readQueue _ | .readBatch _ | .readEmit _ | .readInbox
  | .readSink _ _ => false

theorem Step.publishing_eq {p : Parcel} {x y : Place}
    (h : Step D s a s' (some ⟨p, some x, some y⟩)) : y.publishing = x.publishing := by
  cases h.next <;> rfl

/-- How far a parcel has come on its way. -/
def Place.progress : Place → ℕ
  | .client _ .put | .client _ .request => 0
  | .client _ .push | .readQueue _ => 1
  | .writeQueue _ | .readBatch _ => 2
  | .writeBatch _ | .readEmit _ => 3
  | .writeSource _ .write | .readInbox => 4
  | .writeSource _ .deleteData | .readSink _ .read => 5
  | .writeSource _ .updateStatus | .readSink _ .putData => 6
  | .writeSource _ .emit | .readSink _ .updateStatus => 7
  | .writeInbox => 8
  | .writeSink _ .read => 9
  | .writeSink _ .remove => 10
  | .writeSink _ .write => 11
  | .writeSink _ .updateStatus => 12

/-- Every move takes a parcel one place further. -/
theorem Step.progress_eq {p : Parcel} {x y : Place}
    (h : Step D s a s' (some ⟨p, some x, some y⟩)) : y.progress = x.progress + 1 := by
  cases h.next <;> rfl

theorem Step.key_ne_of_stays {p q : Parcel} {x y z : Place}
    (h : Step D s a s' (some ⟨q, some x, some y⟩)) (before : Solo Parcel.key s.hold p.key)
    (after : Solo Parcel.key s'.hold p.key) (hz : p ∈ s.hold z) (hz' : p ∈ s'.hold z) :
    q.key ≠ p.key := by
  intro hk
  have hx : z = x := before.place_eq hz h.mem_src rfl hk
  have hy : z = y := after.place_eq hz' h.mem_dst rfl hk
  have := h.progress_eq
  rw [← hx, ← hy] at this
  omega

/-! ## Stores -/

/-- The steps that change the warehouse's entry of key `k`, and the entry after them. -/
inductive DataStep (s : Sys) (k : Key) : Action → Option Handover → Option Bytes → Prop
  | publishPut {c p d} (pc : s.client c = .publishPut p d) (key : p.key = k) :
    DataStep s k (.client c) (some ⟨p, some (.client c .put), some (.client c .push)⟩) (some d)
  | sourceDelete {i p rest} (pc : s.writeSource i = .deleteData p rest) (key : p.key = k) :
    DataStep s k (.writeSource i)
      (some ⟨p, some (.writeSource i .deleteData), some (.writeSource i .updateStatus)⟩) none
  | readSinkPut {j p d} (pc : s.readSink j = .putData p d) (key : p.key = k) :
    DataStep s k (.readSink j)
      (some ⟨p, some (.readSink j .putData), some (.readSink j .updateStatus)⟩) (some d)
  | subscribeErase {c p b d} (pc : s.client c = .subscribeErase p b d) (key : p.key = k) :
    DataStep s k (.client c) none none
  | getDataErase {c p d} (pc : s.client c = .getDataErase p d) (key : p.key = k) :
    DataStep s k (.client c) none none

/-- A step keeps an entry of the warehouse, or it is one that changes it. -/
theorem Step.warehouse_cases (h : Step D s a s' m) (k : Key) :
    s'.warehouse k = s.warehouse k ∨ DataStep s k a m (s'.warehouse k) := by
  cases h
  case publishPut c p d pc =>
    rcases eq_or_ne p.key k with rfl | hk
    · exact .inr (by simpa using .publishPut pc rfl)
    · exact .inl (Function.update_of_ne hk.symm ..)
  case sourceDelete i p rest pc =>
    rcases eq_or_ne p.key k with rfl | hk
    · exact .inr (by simpa using .sourceDelete pc rfl)
    · exact .inl (Function.update_of_ne hk.symm ..)
  case readSinkPut j p d pc =>
    rcases eq_or_ne p.key k with rfl | hk
    · exact .inr (by simpa using .readSinkPut pc rfl)
    · exact .inl (Function.update_of_ne hk.symm ..)
  case subscribeErase c p b d pc =>
    rcases eq_or_ne p.key k with rfl | hk
    · exact .inr (by simpa using .subscribeErase pc rfl)
    · exact .inl (Function.update_of_ne hk.symm ..)
  case getDataErase c p d pc =>
    rcases eq_or_ne p.key k with rfl | hk
    · exact .inr (by simpa using .getDataErase pc rfl)
    · exact .inl (Function.update_of_ne hk.symm ..)
  all_goals exact .inl rfl

/-- The steps that change the state recorded for key `k`, and the entry after them. -/
inductive StatusStep (D : Deployment) (s : Sys) (k : Key) :
    Action → Option Handover → Option ParcelState → Prop
  | publishState {c p t} (pc : s.client c = .publishState p t) (key : p.key = k) :
    StatusStep D s k (.client c) none (some ⟨.queued, t⟩)
  | sourceStatus {i p t rest} (pc : s.writeSource i = .updateStatus p t rest) (key : p.key = k) :
    StatusStep D s k (.writeSource i)
      (some ⟨p, some (.writeSource i .updateStatus), some (.writeSource i .emit)⟩)
      (some ⟨(D.writeJob i).source.status, t⟩)
  | sinkStatus {j p t} (pc : s.writeSink j = .updateStatus p t) (key : p.key = k) :
    StatusStep D s k (.writeSink j) (some ⟨p, some (.writeSink j .updateStatus), none⟩)
      (some ⟨.done, t⟩)
  | readStatus {i p t rest} (pc : s.readSource i = .updateStatus p t rest) (key : p.key = k) :
    StatusStep D s k (.readSource i) (some ⟨p, some (.readBatch i), some (.readEmit i)⟩)
      (some ⟨.inProgress, t⟩)
  | readSinkStatus {j p t} (pc : s.readSink j = .updateStatus p t) (key : p.key = k) :
    StatusStep D s k (.readSink j) (some ⟨p, some (.readSink j .updateStatus), none⟩)
      (some ⟨.done, t⟩)
  | waitErase {c p r after} (pc : s.client c = .waitErase p r after) (key : p.key = k) :
    StatusStep D s k (.client c) none none

theorem Step.parselState_cases (h : Step D s a s' m) (k : Key) :
    s'.parselState k = s.parselState k ∨ StatusStep D s k a m (s'.parselState k) := by
  cases h
  case publishState c p t pc =>
    rcases eq_or_ne p.key k with rfl | hk
    · exact .inr (by simpa using .publishState pc rfl)
    · exact .inl (Function.update_of_ne hk.symm ..)
  case sourceStatus i p t rest pc =>
    rcases eq_or_ne p.key k with rfl | hk
    · exact .inr (by simpa using .sourceStatus pc rfl)
    · exact .inl (Function.update_of_ne hk.symm ..)
  case sinkStatus j p t pc =>
    rcases eq_or_ne p.key k with rfl | hk
    · exact .inr (by simpa using .sinkStatus pc rfl)
    · exact .inl (Function.update_of_ne hk.symm ..)
  case readStatus i p t rest pc =>
    rcases eq_or_ne p.key k with rfl | hk
    · exact .inr (by simpa using .readStatus pc rfl)
    · exact .inl (Function.update_of_ne hk.symm ..)
  case readSinkStatus j p t pc =>
    rcases eq_or_ne p.key k with rfl | hk
    · exact .inr (by simpa using .readSinkStatus pc rfl)
    · exact .inl (Function.update_of_ne hk.symm ..)
  case waitErase c p r after pc =>
    rcases eq_or_ne p.key k with rfl | hk
    · exact .inr (by simpa using .waitErase pc rfl)
    · exact .inl (Function.update_of_ne hk.symm ..)
  all_goals exact .inl rfl

/-- The steps that change the files, and the files after them. -/
inductive FileStep (D : Deployment) (s : Sys) : Action → Option Handover → Files → Prop
  | sourceWrite {i p d rest} (pc : s.writeSource i = .write p d rest) :
    FileStep D s (.writeSource i)
      (some ⟨p, some (.writeSource i .write), some (.writeSource i .deleteData)⟩)
      ((D.writeJob i).source.write D s.files p (D.bytesAt i d p.dataSize))
  | sinkRemove {j p d} (pc : s.writeSink j = .remove p d) :
    FileStep D s (.writeSink j)
      (some ⟨p, some (.writeSink j .remove), some (.writeSink j .write)⟩)
      (Function.update s.files (D.staging p) none)
  | sinkWrite {j p d} (pc : s.writeSink j = .write p d) :
    FileStep D s (.writeSink j)
      (some ⟨p, some (.writeSink j .write), some (.writeSink j .updateStatus)⟩)
      (directWrite D s.files p d)

theorem Step.files_cases (h : Step D s a s' m) :
    s'.files = s.files ∨ FileStep D s a m s'.files := by
  cases h
  case sourceWrite i p d rest pc => exact .inr (.sourceWrite pc)
  case sinkRemove j p d pc => exact .inr (.sinkRemove pc)
  case sinkWrite j p d pc => exact .inr (.sinkWrite pc)
  all_goals exact .inl rfl

/-! ## Buffers -/

/-- A collector about to write has just fetched the bytes, or had them before. -/
theorem Step.source_write (h : Step D s a s' m) {i : ℕ} {p : Parcel} {e : Bytes}
    {rest : List Parcel} (pc : s'.writeSource i = .write p e rest) :
    s.writeSource i = .write p e rest ∨ s.writeSource i = .getData p rest ∧ e = s.getData p := by
  cases h
  case sourceWait i' _ | sourcePop i' _ _ _ _ _ _ _ | sourceWrite i' _ _ _ _
    | sourceDelete i' _ _ _ | sourceStatus i' _ _ _ _ =>
    rcases eq_or_ne i i' with rfl | hi
    · simp at pc
    · exact .inl (by simpa [hi] using pc)
  case sourceNext i' amount l _ _ | sourceEmit i' _ l _ =>
    rcases eq_or_ne i i' with rfl | hi
    · cases l <;> simp [WriteSourcePC.next] at pc
    · exact .inl (by simpa [hi] using pc)
  case sourceGetData i' q l hpc =>
    rcases eq_or_ne i i' with rfl | hi
    · simp only [Function.update_self, WriteSourcePC.write.injEq] at pc
      obtain ⟨rfl, rfl, rfl⟩ := pc
      exact .inr ⟨hpc, rfl⟩
    · exact .inl (by simpa [hi] using pc)
  all_goals exact .inl pc

theorem Step.sink_remove (h : Step D s a s' m) {j : ℕ} {p : Parcel} {e : Bytes}
    (pc : s'.writeSink j = .remove p e) :
    s.writeSink j = .remove p e ∨ s.writeSink j = .read p ∧
      e = D.fileIOClient.read s.files (sinkSource p) (List.replicate p.dataSize 0) := by
  cases h
  case deliverWrite j' _ _ _ _ | sinkRemove j' _ _ _ | sinkWrite j' _ _ _ | sinkStatus j' _ _ _ =>
    rcases eq_or_ne j j' with rfl | hj
    · simp at pc
    · exact .inl (by simpa [hj] using pc)
  case sinkRead j' q hpc =>
    rcases eq_or_ne j j' with rfl | hj
    · simp only [Function.update_self, WriteSinkPC.remove.injEq] at pc
      obtain ⟨rfl, rfl⟩ := pc
      exact .inr ⟨hpc, rfl⟩
    · exact .inl (by simpa [hj] using pc)
  all_goals exact .inl pc

theorem Step.sink_write (h : Step D s a s' m) {j : ℕ} {p : Parcel} {e : Bytes}
    (pc : s'.writeSink j = .write p e) :
    s.writeSink j = .write p e ∨ s.writeSink j = .remove p e := by
  cases h
  case deliverWrite j' _ _ _ _ | sinkRead j' _ _ | sinkWrite j' _ _ _ | sinkStatus j' _ _ _ =>
    rcases eq_or_ne j j' with rfl | hj
    · simp at pc
    · exact .inl (by simpa [hj] using pc)
  case sinkRemove j' q d hpc =>
    rcases eq_or_ne j j' with rfl | hj
    · simp only [Function.update_self, WriteSinkPC.write.injEq] at pc
      obtain ⟨rfl, rfl⟩ := pc
      exact .inr hpc
    · exact .inl (by simpa [hj] using pc)
  all_goals exact .inl pc

theorem Step.readSink_put (h : Step D s a s' m) {j : ℕ} {p : Parcel} {e : Bytes}
    (pc : s'.readSink j = .putData p e) :
    s.readSink j = .putData p e ∨ s.readSink j = .read p ∧ e = readSinkData D s.files p := by
  cases h
  case deliverRead j' _ _ _ _ | readSinkPut j' _ _ _ | readSinkStatus j' _ _ _ =>
    rcases eq_or_ne j j' with rfl | hj
    · simp at pc
    · exact .inl (by simpa [hj] using pc)
  case readSinkRead j' q hpc =>
    rcases eq_or_ne j j' with rfl | hj
    · simp only [Function.update_self, ReadSinkPC.putData.injEq] at pc
      obtain ⟨rfl, rfl⟩ := pc
      exact .inr ⟨hpc, rfl⟩
    · exact .inl (by simpa [hj] using pc)
  all_goals exact .inl pc

theorem Step.not_call_of_src {c : ℕ} {r : Call} {q : Parcel} {x : Place} {y : Option Place}
    (h : Step D s (.call c r) s' (some ⟨q, some x, y⟩)) : False := by
  generalize hm : some (Handover.mk q (some x) y) = l at h
  cases h
  cases r <;> cases hm

theorem Step.to_readSink_put {q : Parcel} {x : Option Place} {j : ℕ}
    (h : Step D s a s' (some ⟨q, x, some (.readSink j .putData)⟩)) :
    a = .readSink j ∧ s.readSink j = .read q ∧
      s'.readSink j = .putData q (readSinkData D s.files q) := by
  generalize hm : some (Handover.mk q x (some (.readSink j .putData))) = l at h
  cases h
  case call c r free => cases r <;> cases hm
  case sourceEmit i p rest pc =>
    simp only [Option.some.injEq, Handover.mk.injEq, Deployment.emitDst] at hm
    split_ifs at hm <;> simp at hm
  case readSinkRead j' p pc =>
    cases hm
    exact ⟨rfl, pc, Function.update_self ..⟩
  all_goals cases hm

theorem Step.to_readSink_status {q : Parcel} {x : Option Place} {j : ℕ}
    (h : Step D s a s' (some ⟨q, x, some (.readSink j .updateStatus)⟩)) :
    ∃ b, a = .readSink j ∧ x = some (.readSink j .putData) ∧ s.readSink j = .putData q b ∧
      s'.warehouse q.key = some b := by
  generalize hm : some (Handover.mk q x (some (.readSink j .updateStatus))) = l at h
  cases h
  case call c r free => cases r <;> cases hm
  case sourceEmit i p rest pc =>
    simp only [Option.some.injEq, Handover.mk.injEq, Deployment.emitDst] at hm
    split_ifs at hm <;> simp at hm
  case readSinkPut j' p b pc =>
    cases hm
    exact ⟨b, rfl, rfl, pc, Function.update_self ..⟩
  all_goals cases hm

end Rhea
