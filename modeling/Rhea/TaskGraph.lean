import Rhea.Lib.Msgpack

/-!
# The codec of a task graph

A task travels as an array of four entries, the last of which is the array of the tasks it links to.
The codecs of the four classes do the same; links are encoded and decoded as base tasks throughout.
What is kept is the tree that a task unfolds to (`Unfolds`): the decoder makes every task of it anew,
once for each path that leads there (`task_graph_round_trips`).

The recursion of the encoders goes through pointers and ends only where these run into no cycle.
`fuel` bounds its depth; the height of the tree is enough.
-/

namespace Rhea

open Msgpack

/-- `Task<Parcel>` with what its adaptors see; `ε` is `TaskType`, and a link is an address. -/
structure Task (ε : Type) where
  jobId : UInt32
  id : UInt32
  type : ε
  links : List ℕ
  deriving Inhabited

/-- `RheaWriteQueueSourceTask` -/
structure RheaWriteQueueSourceTask (ε : Type) extends Task ε where
  serverId : UInt16

/-- `RheaKeyByTask` -/
structure RheaKeyByTask (ε : Type) extends Task ε

/-- `RheaWriteSinkTask` -/
structure RheaWriteSinkTask (ε : Type) extends Task ε

/-- The tasks that `std::make_shared` has allocated; an address is a position. -/
abbrev Heap (ε : Type) := List (Task ε)

variable {ε : Type}

/-! ## Encoding -/

/-- `pack` of a vector of pointers, each of which is packed as what it points to. -/
def packLinks (pointee : Stream → Task ε → Option Stream) (h : Heap ε) (o : Stream)
    (links : List ℕ) : Option Stream :=
  links.foldlM (fun o p => h[p]?.bind (pointee o)) (packArray o links.length)

/-- The body of `pack` of a task. -/
def packFields (E : Adaptor ε) (pointee : Stream → Task ε → Option Stream) (h : Heap ε) (o : Stream)
    (input : Task ε) : Option Stream :=
  let o := packArray o 4
  let o := pack (.unsigned 32) o input.jobId.toBitVec
  let o := pack (.unsigned 32) o input.id.toBitVec
  let o := pack E o input.type
  packLinks pointee h o input.links

/-- `pack<Task<Parcel>>` -/
def packTask (E : Adaptor ε) (h : Heap ε) : ℕ → Stream → Task ε → Option Stream
  | 0 => fun _ _ => none
  | fuel + 1 => packFields E (packTask E h fuel) h

/-- `pack<RheaWriteQueueSourceTask>` -/
def packRheaWriteQueueSourceTask (E : Adaptor ε) (h : Heap ε) (fuel : ℕ) (o : Stream)
    (input : RheaWriteQueueSourceTask ε) : Option Stream :=
  packFields E (packTask E h fuel) h o input.toTask

/-- `pack<RheaKeyByTask>` -/
def packRheaKeyByTask (E : Adaptor ε) (h : Heap ε) (fuel : ℕ) (o : Stream)
    (input : RheaKeyByTask ε) : Option Stream :=
  packFields E (packTask E h fuel) h o input.toTask

/-- `pack<RheaWriteSinkTask>` -/
def packRheaWriteSinkTask (E : Adaptor ε) (h : Heap ε) (fuel : ℕ) (o : Stream)
    (input : RheaWriteSinkTask ε) : Option Stream :=
  packFields E (packTask E h fuel) h o input.toTask

/-- The body of `object_with_zone` of a task. -/
def objectFields (E : Adaptor ε) (pointee : Task ε → Option Object) (h : Heap ε)
    (input : Task ε) : Option Object := do
  let links ← input.links.mapM fun p => h[p]?.bind pointee
  some (.array [object (.unsigned 32) input.jobId.toBitVec,
    object (.unsigned 32) input.id.toBitVec,
    object E input.type,
    .array links])

/-- `object_with_zone<Task<Parcel>>` -/
def objectWithZoneTask (E : Adaptor ε) (h : Heap ε) : ℕ → Task ε → Option Object
  | 0 => fun _ => none
  | fuel + 1 => objectFields E (objectWithZoneTask E h fuel) h

/-- `object_with_zone<RheaWriteQueueSourceTask>` -/
def objectWithZoneRheaWriteQueueSourceTask (E : Adaptor ε) (h : Heap ε) (fuel : ℕ)
    (input : RheaWriteQueueSourceTask ε) : Option Object :=
  objectFields E (objectWithZoneTask E h fuel) h input.toTask

/-- `object_with_zone<RheaKeyByTask>` -/
def objectWithZoneRheaKeyByTask (E : Adaptor ε) (h : Heap ε) (fuel : ℕ)
    (input : RheaKeyByTask ε) : Option Object :=
  objectFields E (objectWithZoneTask E h fuel) h input.toTask

/-- `object_with_zone<RheaWriteSinkTask>` -/
def objectWithZoneRheaWriteSinkTask (E : Adaptor ε) (h : Heap ε) (fuel : ℕ)
    (input : RheaWriteSinkTask ε) : Option Object :=
  objectFields E (objectWithZoneTask E h fuel) h input.toTask

/-! ## Decoding -/

/-- `as` of a vector of pointers: `std::make_shared` of what `pointee` makes of each element. -/
def convertLinks (pointee : Object → Heap ε → Option (Task ε × Heap ε)) :
    List Object → Heap ε → Option (List ℕ × Heap ε)
  | [], h => some ([], h)
  | o :: os, h => do
    let (task, h) ← pointee o h
    let (links, h') ← convertLinks pointee os (h ++ [task])
    some (h.length :: links, h')

/-- The body of `convert` of a task, which decodes into `input`. -/
def convertFields (E : Adaptor ε) (pointee : Object → Heap ε → Option (Task ε × Heap ε)) (o : Object)
    (input : Task ε) (h : Heap ε) : Option (Task ε × Heap ε) := do
  let jobId ← (← o.ptr 0).as (.unsigned 32)
  let id ← (← o.ptr 1).as (.unsigned 32)
  let type ← (← o.ptr 2).as E
  let elems ← (← o.ptr 3).elems
  let (links, h) ← convertLinks pointee elems h
  some ({ input with jobId := ⟨jobId⟩, id := ⟨id⟩, type := type, links := links }, h)

/-- `convert<Task<Parcel>>`; what a link points to is decoded into a new task. -/
def convertTask [Inhabited ε] (E : Adaptor ε) : ℕ → Object → Task ε → Heap ε →
    Option (Task ε × Heap ε)
  | 0 => fun _ _ _ => none
  | fuel + 1 => convertFields E fun o h => convertTask E fuel o default h

/-- `convert<RheaWriteQueueSourceTask>` -/
def convertRheaWriteQueueSourceTask [Inhabited ε] (E : Adaptor ε) (fuel : ℕ) (o : Object)
    (input : RheaWriteQueueSourceTask ε) (h : Heap ε) :
    Option (RheaWriteQueueSourceTask ε × Heap ε) := do
  let (task, h) ← convertFields E (fun o h => convertTask E fuel o default h) o input.toTask h
  some ({ input with toTask := task }, h)

/-- `convert<RheaKeyByTask>` -/
def convertRheaKeyByTask [Inhabited ε] (E : Adaptor ε) (fuel : ℕ) (o : Object)
    (input : RheaKeyByTask ε) (h : Heap ε) : Option (RheaKeyByTask ε × Heap ε) := do
  let (task, h) ← convertFields E (fun o h => convertTask E fuel o default h) o input.toTask h
  some ({ input with toTask := task }, h)

/-- `convert<RheaWriteSinkTask>` -/
def convertRheaWriteSinkTask [Inhabited ε] (E : Adaptor ε) (fuel : ℕ) (o : Object)
    (input : RheaWriteSinkTask ε) (h : Heap ε) : Option (RheaWriteSinkTask ε × Heap ε) := do
  let (task, h) ← convertFields E (fun o h => convertTask E fuel o default h) o input.toTask h
  some ({ input with toTask := task }, h)

/-! ## What a task graph unfolds to -/

/-- A task with its links followed. -/
inductive TaskTree (ε : Type)
  | node (jobId id : UInt32) (type : ε) (links : List (TaskTree ε))

mutual

/-- Following the links of a task in `h` ends, and gives the tree. -/
inductive Unfolds (h : Heap ε) : Task ε → TaskTree ε → Prop
  | node {task : Task ε} {trees : List (TaskTree ε)} (links : LinksUnfold h task.links trees) :
    Unfolds h task (.node task.jobId task.id task.type trees)

/-- Following links in `h` gives the trees, in order. -/
inductive LinksUnfold (h : Heap ε) : List ℕ → List (TaskTree ε) → Prop
  | nil : LinksUnfold h [] []
  | cons {p : ℕ} {task : Task ε} {links : List ℕ} {tree : TaskTree ε} {trees : List (TaskTree ε)}
    (pointee : h[p]? = some task) (first : Unfolds h task tree) (rest : LinksUnfold h links trees) :
    LinksUnfold h (p :: links) (tree :: trees)

end

mutual

/-- The height of a tree. -/
def TaskTree.height : TaskTree ε → ℕ
  | .node _ _ _ links => heights links + 1

/-- The height of the highest of some trees. -/
def heights : List (TaskTree ε) → ℕ
  | [] => 0
  | tree :: trees => max tree.height (heights trees)

end

mutual

/-- A tree as a packed value. -/
def TaskTree.object (E : Adaptor ε) : TaskTree ε → Object
  | .node jobId id type links =>
    .array [Msgpack.object (.unsigned 32) jobId.toBitVec, Msgpack.object (.unsigned 32) id.toBitVec,
      Msgpack.object E type, .array (objects E links)]

/-- Trees as packed values. -/
def objects (E : Adaptor ε) : List (TaskTree ε) → List Object
  | [] => []
  | tree :: trees => tree.object E :: objects E trees

end

variable {E : Adaptor ε} {h h' : Heap ε}

@[simp] theorem length_objects (trees : List (TaskTree ε)) :
    (objects E trees).length = trees.length := by
  induction trees with
  | nil => rfl
  | cons tree trees ih => rw [objects, List.length_cons, List.length_cons, ih]

theorem LinksUnfold.length_eq {links : List ℕ} {trees : List (TaskTree ε)}
    (unfold : LinksUnfold h links trees) : links.length = trees.length := by
  induction links generalizing trees with
  | nil => cases unfold; rfl
  | cons p links ih =>
    cases unfold with
    | cons pointee first rest => rw [List.length_cons, List.length_cons, ih rest]

mutual

/-- Allocation leaves what a task unfolds to as it is. -/
theorem Unfolds.grow {task : Task ε} {tree : TaskTree ε} (unfolds : Unfolds h task tree)
    (grown : h <+: h') : Unfolds h' task tree := by
  cases unfolds with
  | node links => exact .node (links.grow grown)

theorem LinksUnfold.grow {links : List ℕ} {trees : List (TaskTree ε)}
    (unfold : LinksUnfold h links trees) (grown : h <+: h') : LinksUnfold h' links trees := by
  cases unfold with
  | nil => exact .nil
  | @cons p task links tree trees pointee first rest =>
    have kept : h'[p]? = some task := by
      obtain ⟨more, rfl⟩ := grown
      rw [List.getElem?_append_left (List.getElem?_eq_some_iff.mp pointee).1]
      exact pointee
    exact .cons kept (first.grow grown) (rest.grow grown)

end

mutual

/-- A task unfolds to one tree only. -/
theorem Unfolds.unique {task : Task ε} {tree other : TaskTree ε} (unfolds : Unfolds h task tree)
    (also : Unfolds h task other) : tree = other := by
  cases unfolds with
  | node links =>
    cases also with
    | node also => rw [links.unique also]

theorem LinksUnfold.unique {links : List ℕ} {trees others : List (TaskTree ε)}
    (unfold : LinksUnfold h links trees) (also : LinksUnfold h links others) : trees = others := by
  cases unfold with
  | nil => cases also; rfl
  | cons pointee first rest =>
    cases also with
    | cons again alsoFirst alsoRest =>
      obtain rfl := Option.some.inj (pointee.symm.trans again)
      rw [first.unique alsoFirst, rest.unique alsoRest]

end

/-! ## What the encoders write -/

/-- What `packFields` writes, when `pointee` writes what the links unfold to. -/
theorem packFields_eq {pointee : Stream → Task ε → Option Stream} {task : Task ε}
    {trees : List (TaskTree ε)} (o : Stream)
    (unfold : LinksUnfold h task.links trees)
    (written : ∀ o, task.links.foldlM (fun o p => h[p]?.bind (pointee o)) o =
      some (o ++ tokensAll (objects E trees))) :
    packFields E pointee h o task =
      some (o ++ ((TaskTree.node task.jobId task.id task.type trees).object E).tokens) := by
  unfold packFields packLinks
  rw [written]
  simp [packArray, pack, TaskTree.object, Object.tokens, tokensAll, unfold.length_eq]

mutual

theorem packTask_eq {task : Task ε} {tree : TaskTree ε} {fuel : ℕ} (o : Stream)
    (unfolds : Unfolds h task tree) (enough : tree.height ≤ fuel) :
    packTask E h fuel o task = some (o ++ (tree.object E).tokens) := by
  cases unfolds with
  | node links =>
    rw [TaskTree.height] at enough
    cases fuel with
    | zero => omega
    | succ fuel =>
      apply packFields_eq o links
      intro o
      exact packLinks_eq o links (by omega)

theorem packLinks_eq {links : List ℕ} {trees : List (TaskTree ε)} {fuel : ℕ} (o : Stream)
    (unfold : LinksUnfold h links trees) (enough : heights trees ≤ fuel) :
    links.foldlM (fun o p => h[p]?.bind (packTask E h fuel o)) o =
      some (o ++ tokensAll (objects E trees)) := by
  cases unfold with
  | nil => simp [objects, tokensAll]
  | cons pointee first rest =>
    rw [heights] at enough
    rw [List.foldlM_cons, pointee, Option.bind_some, packTask_eq o first (by omega)]
    simp only [Option.bind_eq_bind, Option.bind_some]
    rw [packLinks_eq _ rest (by omega), objects, tokensAll, List.append_assoc]

end

theorem objectFields_eq {pointee : Task ε → Option Object} {task : Task ε}
    {trees : List (TaskTree ε)}
    (built : (task.links.mapM fun p => h[p]?.bind pointee) = some (objects E trees)) :
    objectFields E pointee h task =
      some ((TaskTree.node task.jobId task.id task.type trees).object E) := by
  rw [objectFields, built]
  rfl

mutual

theorem objectWithZoneTask_eq {task : Task ε} {tree : TaskTree ε} {fuel : ℕ}
    (unfolds : Unfolds h task tree) (enough : tree.height ≤ fuel) :
    objectWithZoneTask E h fuel task = some (tree.object E) := by
  cases unfolds with
  | node links =>
    rw [TaskTree.height] at enough
    cases fuel with
    | zero => omega
    | succ fuel =>
      apply objectFields_eq
      exact objectLinks_eq links (by omega)

theorem objectLinks_eq {links : List ℕ} {trees : List (TaskTree ε)} {fuel : ℕ}
    (unfold : LinksUnfold h links trees) (enough : heights trees ≤ fuel) :
    (links.mapM fun p => h[p]?.bind (objectWithZoneTask E h fuel)) = some (objects E trees) := by
  cases unfold with
  | nil => rfl
  | cons pointee first rest =>
    rw [heights] at enough
    rw [List.mapM_cons, pointee, Option.bind_some, objectWithZoneTask_eq first (by omega),
      objectLinks_eq rest (by omega)]
    rfl

end

/-! ## What the decoders make of it -/

theorem convertFields_eq {pointee : Object → Heap ε → Option (Task ε × Heap ε)} {jobId id : UInt32}
    {type : ε} {trees : List (TaskTree ε)} {links : List ℕ} (input : Task ε)
    (converted : convertLinks pointee (objects E trees) h = some (links, h')) :
    convertFields E pointee ((TaskTree.node jobId id type trees).object E) input h =
      some (⟨jobId, id, type, links⟩, h') := by
  unfold convertFields TaskTree.object
  simp only [Option.bind_eq_bind]
  rw [ptr_bind_as rfl, ptr_bind_as rfl, ptr_bind_as rfl]
  simp [Object.ptr, Object.elems, converted]

variable [Inhabited ε]

mutual

theorem convertTask_unfolds (tree : TaskTree ε) {fuel : ℕ} (enough : tree.height ≤ fuel)
    (input : Task ε) (h : Heap ε) :
    ∃ task h', convertTask E fuel (tree.object E) input h = some (task, h') ∧ h <+: h' ∧
      Unfolds h' task tree := by
  cases tree with
  | node jobId id type trees =>
    rw [TaskTree.height] at enough
    cases fuel with
    | zero => omega
    | succ fuel =>
      have enough : heights trees ≤ fuel := by omega
      obtain ⟨links, h', converted, grown, unfold⟩ := convertLinks_unfold trees enough h
      refine ⟨⟨jobId, id, type, links⟩, h', convertFields_eq input converted, grown, ?_⟩
      exact @Unfolds.node _ _ ⟨jobId, id, type, links⟩ _ unfold

theorem convertLinks_unfold (trees : List (TaskTree ε)) {fuel : ℕ}
    (enough : heights trees ≤ fuel) (h : Heap ε) :
    ∃ links h', convertLinks (fun o h => convertTask E fuel o default h) (objects E trees) h =
      some (links, h') ∧ h <+: h' ∧ LinksUnfold h' links trees := by
  cases trees with
  | nil => exact ⟨[], h, rfl, List.prefix_rfl, .nil⟩
  | cons tree trees =>
    rw [heights] at enough
    obtain ⟨task, allocated, first, firstGrown, firstUnfolds⟩ :=
      convertTask_unfolds tree (le_of_max_le_left enough) default h
    obtain ⟨links, h', rest, restGrown, restUnfold⟩ :=
      convertLinks_unfold trees (le_of_max_le_right enough) (allocated ++ [task])
    have grown : allocated <+: h' := (List.prefix_append allocated [task]).trans restGrown
    -- the new task stands right behind what it consists of
    have pointee : h'[allocated.length]? = some task := by
      obtain ⟨more, rfl⟩ := restGrown
      simp
    refine ⟨allocated.length :: links, h', ?_, firstGrown.trans grown,
      .cons pointee (firstUnfolds.grow grown) restUnfold⟩
    rw [objects, convertLinks, first]
    simp only [Option.bind_eq_bind, Option.bind_some]
    rw [rest]
    rfl

end

/-! ## Round trips -/

/-- Decoding `o` into whatever task gives one that unfolds to `tree`, and leaves the tasks alone that
were there before. -/
def Decodes {τ : Type} (toTask : τ → Task ε)
    (convert : Object → τ → Heap ε → Option (τ × Heap ε)) (o : Object) (tree : TaskTree ε) : Prop :=
  ∀ (input : τ) (h : Heap ε), ∃ decoded h', convert o input h = some (decoded, h') ∧ h <+: h' ∧
    ∀ other, Unfolds h' (toTask decoded) other ↔ other = tree

/-- A task that unfolds to `tree` keeps it: what `pack` writes and what `zone` builds are the same
value, and both its own decoder and that of base tasks make a task of it that unfolds to `tree`. -/
def RoundTrips {τ : Type} (E : Adaptor ε) (toTask : τ → Task ε)
    (pack : Heap ε → ℕ → Stream → τ → Option Stream) (zone : Heap ε → ℕ → τ → Option Object)
    (convert : ℕ → Object → τ → Heap ε → Option (τ × Heap ε)) (h : Heap ε) (task : τ)
    (tree : TaskTree ε) : Prop :=
  ∀ fuel, tree.height ≤ fuel → ∃ o, (pack h fuel [] task).bind unpack = some o ∧
    zone h fuel task = some o ∧ Decodes toTask (convert fuel) o tree ∧
    Decodes (fun task => task) (convertTask E fuel) o tree

theorem convertTask_decodes {tree : TaskTree ε} {fuel : ℕ} (enough : tree.height ≤ fuel) :
    Decodes (fun task => task) (convertTask E fuel) (tree.object E) tree := by
  intro input h
  obtain ⟨task, h', converted, grown, unfolds⟩ := convertTask_unfolds tree enough input h
  refine ⟨task, h', converted, grown, fun other => ⟨fun also => also.unique unfolds, ?_⟩⟩
  rintro rfl
  exact unfolds

theorem Decodes.of_base {τ : Type} {toTask : τ → Task ε}
    {convert : Object → τ → Heap ε → Option (τ × Heap ε)} {o : Object} {tree : TaskTree ε} {fuel : ℕ}
    (set : τ → Task ε → τ) (toTask_set : ∀ input task, toTask (set input task) = task)
    (convert_eq : ∀ input h, convert o input h =
      (convertTask E fuel o (toTask input) h).map fun r => (set input r.1, r.2))
    (base : Decodes (fun task => task) (convertTask E fuel) o tree) :
    Decodes toTask convert o tree := by
  intro input h
  obtain ⟨task, h', converted, grown, unfolds⟩ := base (toTask input) h
  refine ⟨set input task, h', ?_, grown, ?_⟩
  · rw [convert_eq, converted, Option.map_some]
  · rw [toTask_set]
    exact unfolds

/-- A codec that treats the base part of a task as the one of base tasks does, one call deeper, makes
round trips. -/
theorem roundTrips_of_base {τ : Type} {toTask : τ → Task ε}
    {pack : Heap ε → ℕ → Stream → τ → Option Stream} {zone : Heap ε → ℕ → τ → Option Object}
    {convert : ℕ → Object → τ → Heap ε → Option (τ × Heap ε)} {task : τ} {tree : TaskTree ε}
    (set : τ → Task ε → τ) (toTask_set : ∀ input task, toTask (set input task) = task)
    (pack_eq : ∀ fuel o, pack h fuel o task = packTask E h (fuel + 1) o (toTask task))
    (zone_eq : ∀ fuel, zone h fuel task = objectWithZoneTask E h (fuel + 1) (toTask task))
    (convert_eq : ∀ fuel o input h, convert fuel o input h =
      (convertTask E (fuel + 1) o (toTask input) h).map fun r => (set input r.1, r.2))
    (unfolds : Unfolds h (toTask task) tree) : RoundTrips E toTask pack zone convert h task tree := by
  intro fuel enough
  have deeper : tree.height ≤ fuel + 1 := by omega
  refine ⟨tree.object E, ?_, ?_, ?_, convertTask_decodes enough⟩
  · rw [pack_eq, packTask_eq [] unfolds deeper, List.nil_append, Option.bind_some, unpack_tokens]
  · rw [zone_eq, objectWithZoneTask_eq unfolds deeper]
  · exact Decodes.of_base set toTask_set (convert_eq fuel _) (convertTask_decodes deeper)

/-- Tasks of all four classes keep the tree that they unfold to. -/
theorem task_graph_round_trips (E : Adaptor ε) (h : Heap ε) (tree : TaskTree ε) :
    (∀ task : Task ε, Unfolds h task tree →
      RoundTrips E (fun task => task) (packTask E) (objectWithZoneTask E) (convertTask E) h task tree) ∧
    (∀ task : RheaWriteQueueSourceTask ε, Unfolds h task.toTask tree →
      RoundTrips E RheaWriteQueueSourceTask.toTask (packRheaWriteQueueSourceTask E)
        (objectWithZoneRheaWriteQueueSourceTask E) (convertRheaWriteQueueSourceTask E) h task tree) ∧
    (∀ task : RheaKeyByTask ε, Unfolds h task.toTask tree →
      RoundTrips E RheaKeyByTask.toTask (packRheaKeyByTask E) (objectWithZoneRheaKeyByTask E)
        (convertRheaKeyByTask E) h task tree) ∧
    (∀ task : RheaWriteSinkTask ε, Unfolds h task.toTask tree →
      RoundTrips E RheaWriteSinkTask.toTask (packRheaWriteSinkTask E)
        (objectWithZoneRheaWriteSinkTask E) (convertRheaWriteSinkTask E) h task tree) := by
  refine ⟨fun task unfolds fuel enough => ?_, fun task unfolds => ?_, fun task unfolds => ?_,
    fun task unfolds => ?_⟩
  · refine ⟨tree.object E, ?_, objectWithZoneTask_eq unfolds enough, convertTask_decodes enough,
      convertTask_decodes enough⟩
    rw [packTask_eq [] unfolds enough, List.nil_append, Option.bind_some, unpack_tokens]
  · refine roundTrips_of_base (fun input task => { input with toTask := task }) (fun _ _ => rfl)
      (fun _ _ => rfl) (fun _ => rfl) (fun fuel o input h => ?_) unfolds
    rw [Option.map_eq_bind]
    rfl
  · refine roundTrips_of_base (fun input task => { input with toTask := task }) (fun _ _ => rfl)
      (fun _ _ => rfl) (fun _ => rfl) (fun fuel o input h => ?_) unfolds
    rw [Option.map_eq_bind]
    rfl
  · refine roundTrips_of_base (fun input task => { input with toTask := task }) (fun _ _ => rfl)
      (fun _ _ => rfl) (fun _ => rfl) (fun fuel o input h => ?_) unfolds
    rw [Option.map_eq_bind]
    rfl

/-- What `RheaWriteJob::CreateDAG` makes: the source, and the tasks behind it.  The constructors set
the types. -/
def createDAG (jobId : UInt32) (source keyBy sink : ε) : RheaWriteQueueSourceTask ε × Heap ε :=
  (⟨⟨jobId, 0, source, [0]⟩, 0⟩, [⟨jobId, 1, keyBy, [1]⟩, ⟨jobId, 2, sink, []⟩])

omit [Inhabited ε] in
theorem createDAG_unfolds (jobId : UInt32) (source keyBy sink : ε) :
    Unfolds (createDAG jobId source keyBy sink).2 (createDAG jobId source keyBy sink).1.toTask
      (.node jobId 0 source [.node jobId 1 keyBy [.node jobId 2 sink []]]) := by
  have last : LinksUnfold (createDAG jobId source keyBy sink).2 [1] [.node jobId 2 sink []] :=
    .cons rfl (@Unfolds.node _ _ ⟨jobId, 2, sink, []⟩ _ .nil) .nil
  have behind : LinksUnfold (createDAG jobId source keyBy sink).2 [0]
      [.node jobId 1 keyBy [.node jobId 2 sink []]] :=
    .cons rfl (@Unfolds.node _ _ ⟨jobId, 1, keyBy, [1]⟩ _ last) .nil
  exact @Unfolds.node _ _ ⟨jobId, 0, source, [0]⟩ _ behind

/-- The graph of the first job, with the types as numbers. -/
theorem rheaWriteJob_round_trips :
    RoundTrips (.unsigned 32) RheaWriteQueueSourceTask.toTask
      (packRheaWriteQueueSourceTask (.unsigned 32))
      (objectWithZoneRheaWriteQueueSourceTask (.unsigned 32))
      (convertRheaWriteQueueSourceTask (.unsigned 32)) (createDAG 0 0 1 2).2 (createDAG 0 0 1 2).1
      (.node 0 0 0 [.node 0 1 1 [.node 0 2 2 []]]) := by
  obtain ⟨-, source, -⟩ := task_graph_round_trips (.unsigned 32) (createDAG 0 0 1 2).2
    (.node 0 0 0 [.node 0 1 1 [.node 0 2 2 []]])
  exact source _ (createDAG_unfolds 0 0 1 2)

end Rhea
