import Rhea.Linearizability

/-!
# The workload of the client test

The program of `rhea_client_test` runs in any number of processes.  The processes of a group share a
file: each writes its part of it in blocks, waits for the blocks, and then reads blocks.  The parts
tile the file (`TestArgs.position_eq`).  Hence the file is full when the processes of its group have
waited (`test_fills_file`), and every process reads back its blocks (`test_reads_back`).
-/

namespace Rhea

open Transition Custody ByteFile

/-- The arguments of the program. -/
structure TestArgs where
  /-- `-c` -/
  clientsPerFile : ℕ
  /-- `-bs` -/
  bs : ℕ
  /-- `-wc` -/
  wc : ℕ
  /-- `-rc` -/
  rc : ℕ
  /-- `-base` -/
  base : String
  clients_pos : 0 < clientsPerFile
  bs_pos : 0 < bs
  /-- the positions do not wrap around -/
  fits : clientsPerFile * wc * bs ≤ 2 ^ 64

/-- The `unique_id`s that the constructor of `Event` gives to the parcels of the processes. -/
structure UniqueIds where
  of : OperationType → ℕ → ℕ → ℕ
  inj : ∀ {o o' r r' i i'}, of o r i = of o' r' i' → o = o' ∧ r = r' ∧ i = i'

instance : Inhabited UniqueIds where
  default :=
    { of o r i := Nat.pair (if o = .publish then 0 else 1) (Nat.pair r i)
      inj := by
        intro o o' r r' i i' h
        obtain ⟨side, h⟩ := Nat.pair_eq_pair.1 h
        obtain ⟨rank, block⟩ := Nat.pair_eq_pair.1 h
        refine ⟨?_, rank, block⟩
        cases o <;> cases o' <;> simp at side ⊢ }

/-- The calls of a client, in order. -/
def callsOf (c : ℕ) (acts : List Action) : List Call :=
  acts.filterMap fun a =>
    match a with
    | .call c' r => if c' = c then some r else none
    | _ => none

namespace TestArgs

variable (t : TestArgs) (ids : UniqueIds)

/-- `base` of the processes of a group, in the words of the source `sink_group` -/
def file (sinkGroup : ℕ) : String := t.base ++ "/test" ++ toString sinkGroup ++ ".txt"

/-- `sink_member * bs * wc + i * bs` in `size_t` -/
def position (sinkMember i : ℕ) : ℕ := (sinkMember * t.bs * t.wc + i * t.bs) % 2 ^ 64

/-- The `i`-th parcel of process `rank` in the loop that writes, or in the one that reads. -/
def parcel (type : OperationType) (rank i : ℕ) : Parcel where
  id := t.file (rank / t.clientsPerFile)
  position := t.position (rank % t.clientsPerFile) i
  dataSize := t.bs
  storageIndex := 0
  uniqueId := ids.of type rank i
  type := type

/-- `memset(data, 'a', bs)` -/
def block : Bytes := List.replicate t.bs 97

/-- The calls of process `rank` on its `write_client`. -/
def writeCalls (rank : ℕ) : List Call :=
  ((List.range t.wc).map fun i => .publish (t.parcel ids .publish rank i) t.block) ++
    (List.range t.wc).map fun i => .wait (t.parcel ids .publish rank i)

/-- The calls of process `rank` on its `read_client`; `buffers i` is what `data` has when the `i`-th
block is copied into it. -/
def readCalls (rank : ℕ) (buffers : ℕ → Bytes) : List Call :=
  ((List.range t.rc).map fun i => .asyncSubscribe (t.parcel ids .subscribe rank i)) ++
    (List.range t.rc).flatMap fun i =>
      [.wait (t.parcel ids .subscribe rank i),
        .getSubscribedData (t.parcel ids .subscribe rank i) (buffers i)]

/-- `main` of process `rank` -/
def program (rank : ℕ) (buffers : ℕ → Bytes) : List Call :=
  t.writeCalls ids rank ++ t.readCalls ids rank buffers

/-- In the run the clients are processes of the program. -/
def Runs (acts : List Action) : Prop :=
  ∀ rank, ∃ buffers, callsOf rank acts <+: t.program ids rank buffers

end TestArgs

variable {D : Deployment} {files : Files} {acts pre post : List Action} {s s' : Sys} {a : Action}
  {p q : Parcel} {r : Call} {c c' rank i j : ℕ} {d e b : Bytes} {k : Key} {t : TestArgs}
  {ids : UniqueIds} {buffers : ℕ → Bytes} {o : OperationType} {b' : Bool}

/-! ## The calls of a client -/

theorem mem_callsOf : r ∈ callsOf c acts ↔ .call c r ∈ acts := by
  simp only [callsOf, List.mem_filterMap]
  constructor
  · rintro ⟨a, ha, h⟩
    split at h
    · split_ifs at h with same
      cases h
      exact same ▸ ha
    · simp at h
  · intro ha
    exact ⟨_, ha, if_pos rfl⟩

theorem callsOf_append (acts more : List Action) :
    callsOf c (acts ++ more) = callsOf c acts ++ callsOf c more := List.filterMap_append ..

theorem callsOf_call (post : List Action) :
    callsOf c (.call c r :: post) = r :: callsOf c post := by
  simp [callsOf]

theorem callsOn_eq_callsOf (only : ∀ c' r, .call c' r ∈ acts → r.touches k = true → c' = c) :
    callsOn k acts = ((callsOf c acts).filter (Call.touches k)).map (Prod.mk c) := by
  induction acts with
  | nil => rfl
  | cons a acts ih =>
    have rest := ih fun c' r hr => only c' r (List.mem_cons_of_mem _ hr)
    cases a with
    | call c' r =>
      by_cases touches : r.touches k = true
      · obtain rfl := only c' r List.mem_cons_self touches
        simp only [callsOn, callsOf, List.filterMap_cons, touches, if_true, List.filter_cons] at rest ⊢
        rw [rest]
        rfl
      · by_cases hc : c' = c
        · simp only [callsOn, callsOf, List.filterMap_cons, touches, hc, if_true, if_false,
            Bool.false_eq_true, List.filter_cons] at rest ⊢
          exact rest
        · simp only [callsOn, callsOf, List.filterMap_cons, touches, hc, if_false,
            Bool.false_eq_true] at rest ⊢
          exact rest
    | _ => exact rest

theorem countP_uses_eq (k : Key) (acts : List Action) :
    acts.countP (Action.uses k) = (callsOn k acts).countP fun x => x.2.uses k := by
  rw [callsOn, List.countP_filterMap]
  refine List.countP_congr fun a _ => ?_
  cases a with
  | call c r =>
    by_cases touches : r.touches k = true
    · simp [Action.uses, touches]
    · have unused : r.uses k = false := by
        simp only [Call.touches, Bool.or_eq_true, not_or, Bool.not_eq_true] at touches
        exact touches.1
      simp [Action.uses, touches, unused]
  | _ => simp [Action.uses]

theorem writes_of_concat {α : Type*} {l m n : List α} {x : α} (h : l ++ [x] <+: m ++ n)
    (hx : x ∉ m) : m <+: l := by
  rcases List.prefix_or_prefix_of_prefix (List.prefix_append m n) h with hm | hm
  · rcases List.prefix_concat_iff.1 hm with rfl | hm
    · simp at hx
    · exact hm
  · exact absurd (hm.subset (by simp)) hx

theorem filter_flatMap_eq {α β : Type*} {l : List α} {f : α → List β} {P : β → Bool} {x : α}
    (nodup : l.Nodup) (hx : x ∈ l) (only : ∀ y ∈ l, y ≠ x → (f y).filter P = []) :
    (l.flatMap f).filter P = (f x).filter P := by
  obtain ⟨m, n, rfl⟩ := List.append_of_mem hx
  rw [List.nodup_middle, List.nodup_cons] at nodup
  have none {l' : List α} (hl : l' ⊆ m ++ n) : (l'.flatMap f).filter P = [] := by
    rw [List.filter_flatMap, List.flatMap_eq_nil_iff]
    intro y hy
    refine only y ?_ ?_
    · have := hl hy
      simp only [List.mem_append, List.mem_cons] at this ⊢
      tauto
    · rintro rfl
      exact nodup.1 (hl hy)
  rw [List.flatMap_append, List.flatMap_cons, List.filter_append, List.filter_append,
    none (List.subset_append_left m n), none (List.subset_append_right m n), List.nil_append,
    List.append_nil]

theorem filter_map_eq {α β : Type*} {l : List α} {f : α → β} {P : β → Bool} {x : α}
    (nodup : l.Nodup) (hx : x ∈ l) (only : ∀ y ∈ l, P (f y) = true ↔ y = x) :
    (l.map f).filter P = [f x] := by
  rw [List.map_eq_flatMap, filter_flatMap_eq nodup hx]
  · simp [(only x hx).2 rfl]
  · intro y hy hne
    simp [mt (only y hy).1 hne]

/-! ## The parcels of the program -/

namespace TestArgs

theorem key_inj {o o' : OperationType} {r r' i i' : ℕ}
    (h : (t.parcel ids o r i).key = (t.parcel ids o' r' i').key) : o = o' ∧ r = r' ∧ i = i' :=
  ids.inj (congrArg Prod.snd h)

theorem key_eq_iff {o o' : OperationType} {r r' i i' : ℕ} :
    (t.parcel ids o r i).key = (t.parcel ids o' r' i').key ↔ o = o' ∧ r = r' ∧ i = i' := by
  refine ⟨key_inj, ?_⟩
  rintro ⟨rfl, rfl, rfl⟩
  rfl

/-- The calls of the program. -/
theorem mem_program : r ∈ t.program ids rank buffers ↔
    (∃ i < t.wc, r = .publish (t.parcel ids .publish rank i) t.block ∨
      r = .wait (t.parcel ids .publish rank i)) ∨
    ∃ i < t.rc, r = .asyncSubscribe (t.parcel ids .subscribe rank i) ∨
      r = .wait (t.parcel ids .subscribe rank i) ∨
      r = .getSubscribedData (t.parcel ids .subscribe rank i) (buffers i) := by
  simp only [program, writeCalls, readCalls, List.mem_append, List.mem_map, List.mem_flatMap,
    List.mem_range, List.mem_cons, List.not_mem_nil, or_false]
  grind

theorem filter_publish (hi : i < t.wc) :
    (t.program ids rank buffers).filter (Call.touches (t.parcel ids .publish rank i).key) =
      [.publish (t.parcel ids .publish rank i) t.block, .wait (t.parcel ids .publish rank i)] := by
  have mem : i ∈ List.range t.wc := List.mem_range.2 hi
  have publish := @filter_map_eq _ _ (List.range t.wc)
    (fun j => Call.publish (t.parcel ids .publish rank j) t.block)
    (Call.touches (t.parcel ids .publish rank i).key) i List.nodup_range mem
    fun j _ => by simp [Call.touches, Call.uses, Call.waits, key_eq_iff]
  have wait := @filter_map_eq _ _ (List.range t.wc)
    (fun j => Call.wait (t.parcel ids .publish rank j))
    (Call.touches (t.parcel ids .publish rank i).key) i List.nodup_range mem
    fun j _ => by simp [Call.touches, Call.uses, Call.waits, key_eq_iff]
  have reads : (t.readCalls ids rank buffers).filter
      (Call.touches (t.parcel ids .publish rank i).key) = [] := by
    simp [readCalls, Call.touches, Call.uses, Call.waits, key_eq_iff, List.filter_flatMap]
  rw [program, writeCalls, List.filter_append, List.filter_append, publish, wait, reads]
  rfl

theorem filter_subscribe (hi : i < t.rc) :
    (t.program ids rank buffers).filter (Call.touches (t.parcel ids .subscribe rank i).key) =
      [.asyncSubscribe (t.parcel ids .subscribe rank i), .wait (t.parcel ids .subscribe rank i),
        .getSubscribedData (t.parcel ids .subscribe rank i) (buffers i)] := by
  have mem : i ∈ List.range t.rc := List.mem_range.2 hi
  have async := @filter_map_eq _ _ (List.range t.rc)
    (fun j => Call.asyncSubscribe (t.parcel ids .subscribe rank j))
    (Call.touches (t.parcel ids .subscribe rank i).key) i List.nodup_range mem
    fun j _ => by simp [Call.touches, Call.uses, Call.waits, key_eq_iff]
  have take := @filter_flatMap_eq _ _ (List.range t.rc)
    (fun j => [.wait (t.parcel ids .subscribe rank j),
      .getSubscribedData (t.parcel ids .subscribe rank j) (buffers j)])
    (Call.touches (t.parcel ids .subscribe rank i).key) i List.nodup_range mem
    fun j _ hj => by simp [Call.touches, Call.uses, Call.waits, key_eq_iff, hj]
  have writes : (t.writeCalls ids rank).filter
      (Call.touches (t.parcel ids .subscribe rank i).key) = [] := by
    simp [writeCalls, Call.touches, Call.uses, Call.waits, key_eq_iff]
  rw [program, readCalls, List.filter_append, List.filter_append, writes, async, take]
  simp [Call.touches, Call.uses, Call.waits]

/-! ## The parts of the file -/

theorem block_length : t.block.length = t.bs := List.length_replicate ..

/-- The blocks of the processes of a group, one after the other. -/
theorem position_eq (hm : c < t.clientsPerFile) (hi : i < t.wc) :
    t.position c i = (c * t.wc + i) * t.bs := by
  have all := t.fits
  have pos := t.bs_pos
  have before : c * t.wc + i < t.clientsPerFile * t.wc := by
    calc c * t.wc + i < c * t.wc + t.wc := by omega
      _ = (c + 1) * t.wc := by ring
      _ ≤ t.clientsPerFile * t.wc := Nat.mul_le_mul_right _ hm
  have small : (c * t.wc + i) * t.bs < 2 ^ 64 :=
    lt_of_lt_of_le (Nat.mul_lt_mul_of_pos_right before pos) all
  have same : c * t.bs * t.wc + i * t.bs = (c * t.wc + i) * t.bs := by ring
  rw [position, same, Nat.mod_eq_of_lt small]

theorem positions_disjoint {c' i' : ℕ} (hm : c < t.clientsPerFile) (hi : i < t.wc)
    (hm' : c' < t.clientsPerFile) (hi' : i' < t.wc) (hne : ¬ (c = c' ∧ i = i')) :
    t.position c i + t.bs ≤ t.position c' i' ∨ t.position c' i' + t.bs ≤ t.position c i := by
  rw [position_eq hm hi, position_eq hm' hi']
  have different : c * t.wc + i ≠ c' * t.wc + i' := by
    intro h
    have hc : c = c' := by
      rcases Nat.lt_trichotomy c c' with lt | rfl | lt
      · have := Nat.mul_le_mul_right t.wc (show c + 1 ≤ c' from lt)
        rw [Nat.add_mul] at this
        omega
      · rfl
      · have := Nat.mul_le_mul_right t.wc (show c' + 1 ≤ c from lt)
        rw [Nat.add_mul] at this
        omega
    subst hc
    exact hne ⟨rfl, by omega⟩
  have apart {x y : ℕ} (h : x < y) : x * t.bs + t.bs ≤ y * t.bs := by
    have := Nat.mul_le_mul_right t.bs (show x + 1 ≤ y from h)
    rwa [Nat.add_mul, Nat.one_mul] at this
  rcases Nat.lt_or_gt_of_ne different with lt | gt
  · exact .inl (apart lt)
  · exact .inr (apart gt)

theorem file_inj {g g' : ℕ} (h : t.file g = t.file g') : g = g' := by
  have chars := congrArg String.toList h
  simp only [file, String.toList_append, List.append_cancel_right_eq, List.append_cancel_left_eq,
    List.append_assoc] at chars
  exact Nat.repr_injective (String.toList_inj.1 chars)

theorem file_ne_stagingName (g : ℕ) (p : Parcel) : t.file g ≠ p.stagingName := by
  intro h
  have chars := congrArg (fun s : String => s.toList.getLast?) h
  have last : (t.file g).toList.getLast? = some 't' := by
    rw [file, String.toList_append, List.getLast?_append_of_ne_nil _ (by decide)]
    rfl
  have digits : (toString p.position).toList ≠ [] := by
    show (Nat.repr p.position).toList ≠ []
    simp [Nat.repr, Nat.toDigits_ne_nil]
  have digit : p.stagingName.toList.getLast? = some ((toString p.position).toList.getLast digits) := by
    simp only [Parcel.stagingName, Numbered.numbered, String.toList_append]
    rw [List.getLast?_append_of_ne_nil _ digits, List.getLast?_eq_some_getLast digits]
  have isDigit := Numbered.isDigit_of_mem_toString (List.getLast_mem digits)
  rw [← Option.some.inj ((last.symm.trans chars).trans digit)] at isDigit
  simp at isDigit

end TestArgs

/-! ## The runs of the program -/

namespace TestArgs.Runs

theorem cases (runs : t.Runs ids acts) (hr : .call c r ∈ acts) :
    (∃ i < t.wc, r = .publish (t.parcel ids .publish c i) t.block ∨
      r = .wait (t.parcel ids .publish c i)) ∨
    ∃ i < t.rc, r = .asyncSubscribe (t.parcel ids .subscribe c i) ∨
      r = .wait (t.parcel ids .subscribe c i) ∨
      ∃ d, r = .getSubscribedData (t.parcel ids .subscribe c i) d := by
  obtain ⟨buffers, ofProgram⟩ := runs c
  rcases mem_program.1 (ofProgram.subset (mem_callsOf.2 hr)) with written | ⟨i, hi, rfl | rfl | rfl⟩
  · exact .inl written
  · exact .inr ⟨i, hi, .inl rfl⟩
  · exact .inr ⟨i, hi, .inr (.inl rfl)⟩
  · exact .inr ⟨i, hi, .inr (.inr ⟨_, rfl⟩)⟩

theorem eq_of_touches (runs : t.Runs ids acts) (hr : .call c r ∈ acts)
    (touches : r.touches (t.parcel ids o rank i).key = true) : c = rank := by
  rcases runs.cases hr with ⟨j, -, rfl | rfl⟩ | ⟨j, -, rfl | rfl | ⟨d, rfl⟩⟩ <;>
    simp [Call.touches, Call.uses, Call.waits, key_eq_iff] at touches <;> tauto

theorem callsOn_of_program (runs : t.Runs ids acts) (o : OperationType) (rank i : ℕ) :
    ∃ buffers, callsOn (t.parcel ids o rank i).key acts <+:
      ((t.program ids rank buffers).filter (Call.touches (t.parcel ids o rank i).key)).map
        (Prod.mk rank) := by
  obtain ⟨buffers, ofProgram⟩ := runs rank
  refine ⟨buffers, ?_⟩
  rw [callsOn_eq_callsOf fun c' r hr touches => runs.eq_of_touches hr touches]
  exact (ofProgram.filter _).map _

theorem of_mem_publishes (runs : t.Runs ids acts) (h : (p, d) ∈ publishes acts) :
    ∃ rank, ∃ i < t.wc, p = t.parcel ids .publish rank i ∧ d = t.block := by
  obtain ⟨c, hc⟩ := mem_publishes.1 h
  rcases runs.cases hc with ⟨i, hi, h | h⟩ | ⟨i, -, h | h | ⟨d, h⟩⟩ <;> cases h
  exact ⟨c, i, hi, rfl, rfl⟩

theorem of_reads (runs : t.Runs ids acts) (hr : .call c r ∈ acts) (reads : r.reads = some q) :
    ∃ i < t.rc, q = t.parcel ids .subscribe c i := by
  rcases runs.cases hr with ⟨i, hi, rfl | rfl⟩ | ⟨i, hi, rfl | rfl | ⟨d, rfl⟩⟩ <;> cases reads
  · exact ⟨i, hi, rfl⟩
  · exact ⟨i, hi, rfl⟩

theorem distinctKeys (runs : t.Runs ids acts) : DistinctKeys acts := by
  rintro ⟨p, d⟩ hp
  obtain ⟨rank, i, hi, rfl, -⟩ := runs.of_mem_publishes hp
  obtain ⟨buffers, ofProgram⟩ := runs.callsOn_of_program .publish rank i
  rw [filter_publish hi] at ofProgram
  show acts.countP (Action.uses (t.parcel ids .publish rank i).key) ≤ 1
  rw [countP_uses_eq]
  refine ofProgram.sublist.countP_le.trans ?_
  simp [Call.uses]

theorem readOnce (runs : t.Runs ids acts) (hi : i < t.rc) (rank : ℕ) :
    ∃ d, ReadOnce rank (t.parcel ids .subscribe rank i) d acts := by
  obtain ⟨buffers, ofProgram⟩ := runs.callsOn_of_program .subscribe rank i
  rw [filter_subscribe hi] at ofProgram
  exact ⟨_, .inr ofProgram⟩

theorem oneRequest (runs : t.Runs ids acts) : OneRequest acts where
  publish := runs.distinctKeys
  read c r p hr reads := by
    obtain ⟨i, hi, rfl⟩ := runs.of_reads hr reads
    obtain ⟨d, once⟩ := runs.readOnce hi c
    exact ⟨c, d, once⟩

theorem fullBuffers (runs : t.Runs ids acts) : FullBuffers acts := by
  rintro ⟨p, d⟩ hp
  obtain ⟨rank, i, hi, rfl, rfl⟩ := runs.of_mem_publishes hp
  exact ⟨t.bs_pos, block_length⟩

theorem disjointRanges (runs : t.Runs ids acts) : DisjointRanges acts := by
  rintro ⟨p, d⟩ hp ⟨q, e⟩ hq hk hid
  obtain ⟨rank, i, hi, rfl, rfl⟩ := runs.of_mem_publishes hp
  obtain ⟨rank', i', hi', rfl, rfl⟩ := runs.of_mem_publishes hq
  have group : rank / t.clientsPerFile = rank' / t.clientsPerFile := file_inj hid
  refine positions_disjoint (Nat.mod_lt _ t.clients_pos) hi (Nat.mod_lt _ t.clients_pos) hi' ?_
  rintro ⟨member, rfl⟩
  have same : rank = rank' := by
    rw [← Nat.div_add_mod rank t.clientsPerFile, ← Nat.div_add_mod rank' t.clientsPerFile, group,
      member]
  exact hk (same ▸ rfl)

theorem noStagingIds (runs : t.Runs ids acts) : NoStagingIds acts := by
  rintro ⟨p, d⟩ hp ⟨q, e⟩ -
  obtain ⟨rank, i, hi, rfl, rfl⟩ := runs.of_mem_publishes hp
  exact file_ne_stagingName _ q

theorem noStagingReads (runs : t.Runs ids acts) : NoStagingReads acts := by
  rintro c r p hr reads ⟨q, e⟩ -
  obtain ⟨i, hi, rfl⟩ := runs.of_reads hr reads
  exact file_ne_stagingName _ q

/-- A process begins to read only after all its calls that write. -/
theorem writes_before (runs : t.Runs ids (pre ++ .call rank (.asyncSubscribe q) :: post)) :
    t.writeCalls ids rank <+: callsOf rank pre := by
  obtain ⟨buffers, ofProgram⟩ := runs rank
  have before : callsOf rank pre ++ [.asyncSubscribe q] <+: t.program ids rank buffers := by
    refine List.IsPrefix.trans ?_ ofProgram
    rw [callsOf_append, callsOf_call, List.prefix_append_right_inj]
    exact List.prefix_append [_] _
  exact writes_of_concat before (by simp [writeCalls])

theorem asked (runs : t.Runs ids acts) (hi : i < t.rc)
    (hr : .call c r ∈ acts) (touches : r.touches (t.parcel ids .subscribe rank i).key = true) :
    .call rank (.asyncSubscribe (t.parcel ids .subscribe rank i)) ∈ acts := by
  obtain ⟨buffers, ofProgram⟩ := runs.callsOn_of_program .subscribe rank i
  rw [filter_subscribe hi] at ofProgram
  apply And.left
  apply mem_callsOn.1
  show _ ∈ callsOn (t.parcel ids .subscribe rank i).key acts
  have mem := mem_callsOn.2 ⟨hr, touches⟩
  generalize callsOn (t.parcel ids .subscribe rank i).key acts = calls at ofProgram mem ⊢
  cases calls with
  | nil => cases mem
  | cons x calls =>
    obtain ⟨rfl, -⟩ := List.cons_prefix_cons.1 ofProgram
    exact List.mem_cons_self

end TestArgs.Runs

/-! ## What the program does -/

theorem Call.uses_of_reads (h : r.reads = some q) : r.uses q.key = true := by
  cases r <;> cases h <;> simp [uses]

theorem waited_of_free (hrun : run D files acts = some s) (called : .call c (.wait q) ∈ acts)
    (free : (s.client c).free = true) : ∃ v, .waited q v ∈ history D files acts := by
  refine (waited_of_wait hrun called).resolve_left fun serves => ?_
  rw [serves.free] at free
  cases free

theorem calls_of_writes (writes : t.writeCalls ids rank <+: callsOf rank acts) (hi : i < t.wc) :
    .call rank (.publish (t.parcel ids .publish rank i) t.block) ∈ acts ∧
      .call rank (.wait (t.parcel ids .publish rank i)) ∈ acts := by
  constructor
  all_goals
    apply mem_callsOf.1
    apply writes.subset
    simp only [TestArgs.writeCalls, List.mem_append, List.mem_map, List.mem_range]
  · exact .inl ⟨i, hi, rfl⟩
  · exact .inr ⟨i, hi, rfl⟩

/-- The blocks of a process are in the file once it has waited for them. -/
theorem block_written (rhea : ∀ i, D.writeJob i = .rhea) (runs : t.Runs ids acts)
    (hrun : run D files acts = some s) (writes : t.writeCalls ids rank <+: callsOf rank acts)
    (free : (s.client rank).free = true) (hi : i < t.wc) :
    ∃ f, s.files (D.getIOClient 0, t.file (rank / t.clientsPerFile)) = some f ∧
      Holds f (t.position (rank % t.clientsPerFile) i) t.block := by
  obtain ⟨publishes, waits⟩ := calls_of_writes writes hi
  obtain ⟨v, waited⟩ := waited_of_free hrun waits free
  have mem := mem_publishes.2 ⟨rank, publishes⟩
  have only := runs.distinctKeys.only mem
  obtain ⟨q, hq, recorded⟩ := recorded_of_waited hrun waited
  have apart : AllApart D (t.parcel ids .publish rank i) acts :=
    allApart_of_disjoint runs.fullBuffers runs.disjointRanges runs.noStagingIds ⟨_, mem⟩
  exact written_holds rhea only TestArgs.block_length apart hrun
    (written_of_recorded rhea only hrun hq recorded)

/-- The file of a group is full once its processes have waited for their blocks: every byte of it is
the one that they write. -/
theorem test_fills_file (rhea : ∀ i, D.writeJob i = .rhea) (runs : t.Runs ids acts)
    (hrun : run D files acts = some s) {g : ℕ}
    (finished : ∀ rank, rank / t.clientsPerFile = g →
      t.writeCalls ids rank <+: callsOf rank acts ∧ (s.client rank).free = true)
    {n : ℕ} (hn : n < t.clientsPerFile * t.wc * t.bs) :
    ∃ f, s.files (D.getIOClient 0, t.file g) = some f ∧ f[n]? = some 97 := by
  -- the block of the byte, and its process
  have hblock : n / t.bs < t.clientsPerFile * t.wc := Nat.div_lt_of_lt_mul (Nat.mul_comm _ t.bs ▸ hn)
  have wc_pos : 0 < t.wc := by
    apply Nat.pos_of_ne_zero
    intro h
    simp [h] at hblock
  obtain ⟨c, hc⟩ : ∃ c, c = n / t.bs / t.wc := ⟨_, rfl⟩
  obtain ⟨i, hi⟩ : ∃ i, i = n / t.bs % t.wc := ⟨_, rfl⟩
  have member : c < t.clientsPerFile := hc ▸ Nat.div_lt_of_lt_mul (Nat.mul_comm _ t.wc ▸ hblock)
  have block : i < t.wc := hi ▸ Nat.mod_lt _ wc_pos
  have group : (t.clientsPerFile * g + c) / t.clientsPerFile = g := by
    rw [Nat.mul_add_div t.clients_pos, Nat.div_eq_of_lt member, Nat.add_zero]
  obtain ⟨writes, free⟩ := finished _ group
  obtain ⟨f, hf, holds⟩ := block_written rhea runs hrun writes free block
  rw [group] at hf
  refine ⟨f, hf, ?_⟩
  have position : t.position ((t.clientsPerFile * g + c) % t.clientsPerFile) i =
      n / t.bs * t.bs := by
    rw [Nat.mul_add_mod, Nat.mod_eq_of_lt member, TestArgs.position_eq member block, hc, hi,
      Nat.mul_comm (n / t.bs / t.wc), Nat.div_add_mod]
  rw [position] at holds
  have offset : n % t.bs < t.bs := Nat.mod_lt _ t.bs_pos
  have here := (holds_iff_getElem? ..).1 holds (n % t.bs) (TestArgs.block_length.symm ▸ offset)
  rwa [Nat.mul_comm, Nat.div_add_mod, TestArgs.block, List.getElem?_replicate_of_lt offset] at here

/-- Two processes that write one byte each. -/
theorem test_fills_file_two :
    let t : TestArgs := ⟨2, 1, 1, 0, "/tmp", by decide, by decide, by decide⟩
    let p (rank : ℕ) : Parcel := t.parcel default .publish rank 0
    let acts : List Action := List.flatten
      [[.call 0 (.publish (p 0) [97]), .client 0, .client 0, .client 0,
          .call 1 (.publish (p 1) [97]), .client 1, .client 1, .client 1],
        List.replicate 16 (.writeSource 0), .deliverWrite 0 0 :: List.replicate 4 (.writeSink 0),
        .deliverWrite 0 0 :: List.replicate 4 (.writeSink 0),
        [.call 0 (.wait (p 0)), .client 0, .client 0, .call 1 (.wait (p 1)), .client 1, .client 1]]
    ∃ s, run (.single .rhea) (fun _ => none) acts = some s ∧
      ∃ f, s.files (0, "/tmp/test0.txt") = some f ∧ f[1]? = some 97 := by
  intro t p acts
  have hrun := (Option.some_get (x := run (.single .rhea) (fun _ => none) acts)
    (by decide +kernel)).symm
  have calls (rank : ℕ) : callsOf (rank + 2) acts = [] := by
    simp [callsOf, acts]
  have runs : t.Runs default acts := by
    intro rank
    refine ⟨fun _ => [], ?_⟩
    rcases rank with - | - | rank
    · decide +kernel
    · decide +kernel
    · rw [calls]
      exact List.nil_prefix
  refine ⟨_, hrun, test_fills_file (fun _ => rfl) runs hrun (g := 0) (fun rank group => ?_)
    (by decide)⟩
  rcases rank with - | - | rank
  · decide +kernel
  · decide +kernel
  · have two : (rank + 2) / 2 = 0 := group
    omega

theorem charStruct_block (size : ℕ) :
    charStruct size t.block = List.replicate (min size t.bs) 97 := by
  have whole : t.block.takeWhile (· ≠ 0) = t.block := by
    rw [List.takeWhile_eq_self_iff]
    intro x hx
    rw [List.eq_of_mem_replicate hx]
    decide
  rw [charStruct, whole, TestArgs.block, List.take_replicate]

/-- Every process reads back its blocks: `GetSubscribedData` returns `true`, and the buffer has as much
of the block as a `CharStruct` takes. -/
theorem test_reads_back (rhea : ∀ i, D.writeJob i = .rhea) (runs : t.Runs ids acts)
    (hrun : run D files acts = some s) (written : i < t.wc) (read : i < t.rc)
    (returned : .subscribed (t.parcel ids .subscribe rank i) b' e ∈ history D files acts) :
    b' = true ∧ List.replicate (min D.charStructSize t.bs) 97 <+: e := by
  obtain ⟨d, once⟩ := runs.readOnce read rank
  obtain ⟨-, rfl, -, -⟩ := once.answered hrun returned rfl
  obtain ⟨c, r, hr, reads⟩ := reads_of_subscribed hrun returned
  have touches : r.touches (t.parcel ids .subscribe rank i).key = true := by
    simp [Call.touches, Call.uses_of_reads reads]
  obtain ⟨pre, post, rfl⟩ := List.append_of_mem (runs.asked read hr touches)
  -- before it asked for the block, the process has waited for all its blocks
  obtain ⟨s₁, hpre, rest⟩ := (exec_append_eq_some (step D)).1 hrun
  have free : (s₁.client rank).free = true := by
    by_contra busy
    simp [exec, step, busy] at rest
  obtain ⟨publishes, waits⟩ := calls_of_writes runs.writes_before written
  obtain ⟨v, waited⟩ := waited_of_free hpre waits free
  have unused : ¬ Used (t.parcel ids .subscribe rank i).key pre := by
    have begins : pre ++ [.call rank (.asyncSubscribe (t.parcel ids .subscribe rank i))] <+:
        pre ++ .call rank (.asyncSubscribe (t.parcel ids .subscribe rank i)) :: post :=
      ⟨post, by simp⟩
    exact (once.of_prefix begins).unused_of_requests (by simp [Call.requests, Call.brings])
  have same : SameRange D (t.parcel ids .publish rank i) (t.parcel ids .subscribe rank i) :=
    ⟨rfl, rfl, rfl⟩
  have shown := shown_of_acknowledged rhea runs.oneRequest runs.fullBuffers runs.disjointRanges
    runs.noStagingIds runs.noStagingReads hrun (List.mem_append_left _ publishes) same
    (trace_append _ (observe _) _ hpre) waited
    (fun c r hr reads => unused ⟨c, r, (requested_iff hpre).1 hr, Call.uses_of_reads reads⟩) returned
  rw [charStruct_block] at shown
  refine ⟨rfl, ?_⟩
  rw [← shown]
  exact List.prefix_append ..

/-- Two processes that share a file write a byte each and read it back. -/
theorem test_reads_back_two :
    let t : TestArgs := ⟨2, 1, 1, 1, "/tmp", by decide, by decide, by decide⟩
    let p (rank : ℕ) : Parcel := t.parcel default .publish rank 0
    let q (rank : ℕ) : Parcel := t.parcel default .subscribe rank 0
    let acts : List Action := List.flatten
      [[.call 0 (.publish (p 0) [97]), .client 0, .client 0, .client 0,
          .call 1 (.publish (p 1) [97]), .client 1, .client 1, .client 1],
        List.replicate 16 (.writeSource 0), .deliverWrite 0 0 :: List.replicate 4 (.writeSink 0),
        .deliverWrite 1 0 :: List.replicate 4 (.writeSink 1),
        [.call 0 (.wait (p 0)), .client 0, .client 0, .call 1 (.wait (p 1)), .client 1, .client 1,
          .call 0 (.asyncSubscribe (q 0)), .client 0, .call 1 (.asyncSubscribe (q 1)), .client 1],
        List.replicate 8 (.readSource 0), .deliverRead 0 0 :: List.replicate 3 (.readSink 0),
        .deliverRead 1 0 :: List.replicate 3 (.readSink 1),
        [.call 0 (.wait (q 0)), .client 0, .client 0, .call 1 (.wait (q 1)), .client 1, .client 1,
          .call 0 (.getSubscribedData (q 0) [0]), .client 0, .client 0,
          .call 1 (.getSubscribedData (q 1) [0]), .client 1, .client 1]]
    ∃ s, run (.single .rhea) (fun _ => none) acts = some s ∧
      s.files (0, "/tmp/test0.txt") = some [97, 97] ∧
      ∀ rank < 2, .subscribed (q rank) true [97] ∈ history (.single .rhea) (fun _ => none) acts ∧
        true = true ∧ List.replicate 1 (97 : UInt8) <+: [97] := by
  intro t p q acts
  have seen : (run (.single .rhea) (fun _ => none) acts).map (fun s =>
      s.files (0, "/tmp/test0.txt")) = some (some [97, 97]) := by decide +kernel
  obtain ⟨s, hrun, contents⟩ := Option.map_eq_some_iff.1 seen
  have calls (rank : ℕ) : callsOf (rank + 2) acts = [] := by
    simp [callsOf, acts]
  have runs : t.Runs default acts := by
    intro rank
    refine ⟨fun _ => [0], ?_⟩
    rcases rank with - | - | rank
    · decide +kernel
    · decide +kernel
    · rw [calls]
      exact List.nil_prefix
  refine ⟨s, hrun, contents, fun rank small => ?_⟩
  have returned : .subscribed (t.parcel default .subscribe rank 0) true [97] ∈
      history (.single .rhea) (fun _ => none) acts := by
    revert rank
    decide +kernel
  exact ⟨returned, test_reads_back (fun _ => rfl) runs hrun (by decide) (by decide) returned⟩

end Rhea
