import Rhea.System
import Rhea.Lib.Custody

/-!
# The steps, and where the parcels are

A parcel that has been requested and not yet finished is a token at one `Place`: with its client
before the push, in a queue, in the batch of a collector, with a collector or a sink at a certain
operation, or behind an `emit`.  `Step` lists the steps of the system with their exact effect, each
with the hand-over of a token it makes (`step_sound`, `Step.transfer`).  All invariants are derived
from this list.
-/

namespace Rhea

open Transition Custody

/-! ## Places -/

/-- The operation before which a client holds a requested parcel. -/
inductive ClientStage
  | put
  | push
  | request
  deriving DecidableEq

/-- The operation before which a write collector holds the current parcel. -/
inductive SourceStage
  | write
  | deleteData
  | updateStatus
  | emit
  deriving DecidableEq

/-- The operation before which a write sink holds its parcel. -/
inductive WriteSinkStage
  | read
  | remove
  | write
  | updateStatus
  deriving DecidableEq

/-- The operation before which a read sink holds its parcel. -/
inductive ReadSinkStage
  | read
  | putData
  | updateStatus
  deriving DecidableEq

/-- Where a parcel can be.  A collector's batch is what it has popped and not begun to handle. -/
inductive Place
  | client (c : ℕ) (st : ClientStage)
  | writeQueue (server : ℕ)
  | writeBatch (i : ℕ)
  | writeSource (i : ℕ) (st : SourceStage)
  | writeInbox
  | writeSink (j : ℕ) (st : WriteSinkStage)
  | readQueue (server : ℕ)
  | readBatch (i : ℕ)
  | readEmit (i : ℕ)
  | readInbox
  | readSink (j : ℕ) (st : ReadSinkStage)
  deriving DecidableEq

instance : Inhabited Place := ⟨.writeInbox⟩

/-- The parcel of a client that has not been pushed. -/
def ClientPC.held : ClientPC → ClientStage → List Parcel
  | .publishPut p _, st => if st = .put then [p] else []
  | .publishPush p, st => if st = .push then [p] else []
  | .subscribePush p _, st => if st = .request then [p] else []
  | .asyncPush p, st => if st = .request then [p] else []
  | .idle, _ | .publishState _ _, _ | .waitGet _ _, _ | .waitErase _ _ _, _ | .subscribeGet _ _, _
  | .subscribeErase _ _ _, _ | .getDataGet _ _, _ | .getDataErase _ _, _ | .returned _, _ => []

/-- What a write collector has popped and not begun to handle. -/
def WriteSourcePC.batch : WriteSourcePC → List Parcel
  | .wait => []
  | .pop _ parcels => parcels
  | .getData p rest => p :: rest
  | .write _ _ rest => rest
  | .deleteData _ rest => rest
  | .updateStatus _ _ rest => rest
  | .emit _ rest => rest

/-- The parcel a write collector is handling. -/
def WriteSourcePC.held : WriteSourcePC → SourceStage → List Parcel
  | .write p _ _, st => if st = .write then [p] else []
  | .deleteData p _, st => if st = .deleteData then [p] else []
  | .updateStatus p _ _, st => if st = .updateStatus then [p] else []
  | .emit p _, st => if st = .emit then [p] else []
  | .wait, _ | .pop _ _, _ | .getData _ _, _ => []

/-- The parcel a write sink is handling. -/
def WriteSinkPC.held : WriteSinkPC → WriteSinkStage → List Parcel
  | .read p, st => if st = .read then [p] else []
  | .remove p _, st => if st = .remove then [p] else []
  | .write p _, st => if st = .write then [p] else []
  | .updateStatus p _, st => if st = .updateStatus then [p] else []
  | .idle, _ => []

/-- What a read collector has popped and not begun to handle. -/
def ReadSourcePC.batch : ReadSourcePC → List Parcel
  | .wait => []
  | .pop _ parcels => parcels
  | .updateStatus p _ rest => p :: rest
  | .emit _ rest => rest

/-- The parcel a read collector is about to emit. -/
def ReadSourcePC.held : ReadSourcePC → List Parcel
  | .emit p _ => [p]
  | .wait | .pop _ _ | .updateStatus _ _ _ => []

/-- The parcel a read sink is handling. -/
def ReadSinkPC.held : ReadSinkPC → ReadSinkStage → List Parcel
  | .read p, st => if st = .read then [p] else []
  | .putData p _, st => if st = .putData then [p] else []
  | .updateStatus p _, st => if st = .updateStatus then [p] else []
  | .idle, _ => []

/-- The parcels at a place, in order. -/
def Sys.at (s : Sys) : Place → List Parcel
  | .client c st => (s.client c).held st
  | .writeQueue server => s.writeQueue server
  | .writeBatch i => (s.writeSource i).batch
  | .writeSource i st => (s.writeSource i).held st
  | .writeInbox => s.writeInbox
  | .writeSink j st => (s.writeSink j).held st
  | .readQueue server => s.readQueue server
  | .readBatch i => (s.readSource i).batch
  | .readEmit i => (s.readSource i).held
  | .readInbox => s.readInbox
  | .readSink j st => (s.readSink j).held st

/-- The parcels at a place, as tokens. -/
def Sys.hold (s : Sys) (z : Place) : Multiset Parcel := s.at z

theorem Sys.mem_hold {s : Sys} {z : Place} {p : Parcel} : p ∈ s.hold z ↔ p ∈ s.at z := Iff.rfl

@[simp] theorem WriteSourcePC.batch_next (l : List Parcel) : (WriteSourcePC.next l).batch = l := by
  cases l <;> rfl

@[simp] theorem WriteSourcePC.held_next (l : List Parcel) (st : SourceStage) :
    (WriteSourcePC.next l).held st = [] := by
  cases l <;> cases st <;> rfl

@[simp] theorem ReadSourcePC.batch_next (now : ℕ) (l : List Parcel) :
    (ReadSourcePC.next now l).batch = l := by
  cases l <;> rfl

@[simp] theorem ReadSourcePC.held_next (now : ℕ) (l : List Parcel) :
    (ReadSourcePC.next now l).held = [] := by
  cases l <;> rfl

@[simp] theorem ClientPC.held_waitAllNext (l : List Parcel) (states : List ParcelState)
    (st : ClientStage) : (waitAllNext l states).held st = [] := by
  cases l <;> cases st <;> rfl

@[simp] theorem ClientPC.held_waitReturn (p : Parcel) (result : ParcelState) (after : AfterWait)
    (st : ClientStage) : (waitReturn p result after).held st = [] := by
  cases after
  · rfl
  · rfl
  · exact held_waitAllNext _ _ st

/-! ## The steps -/

/-- A hand-over of a parcel: from where and to where. -/
structure Handover where
  parcel : Parcel
  src : Option Place
  dst : Option Place

/-- A request brings its parcel into the system. -/
def Call.handover (c : ℕ) : Call → Option Handover
  | .publish p _ => some ⟨p, none, some (.client c .put)⟩
  | .subscribe p _ => some ⟨p, none, some (.client c .request)⟩
  | .asyncSubscribe p => some ⟨p, none, some (.client c .request)⟩
  | .getSubscribedData _ _ | .wait _ | .waitAll _ => none

variable (D : Deployment)

/-- Where the parcels go that a write collector emits. -/
def Deployment.emitDst (i : ℕ) : Option Place :=
  if (D.writeJob i).source.linked then some .writeInbox else none

/-- A step of the system: the state before, the action, the state after, and the hand-over. -/
inductive Step (s : Sys) : Action → Sys → Option Handover → Prop
  | call (c : ℕ) (r : Call) (free : (s.client c).free = true) :
    Step s (.call c r) { s with client := Function.update s.client c (clientStart r) }
      (r.handover c)
  | publishPut {c p d} (pc : s.client c = .publishPut p d) :
    Step s (.client c)
      { s with
        toShared := s.toShared.putData p d
        client := Function.update s.client c (.publishPush p) }
      (some ⟨p, some (.client c .put), some (.client c .push)⟩)
  | publishPush {c p} (pc : s.client c = .publishPush p) :
    Step s (.client c)
      { s with
        toShared := s.toShared.pushWrite (D.myServer c) p
        client := Function.update s.client c (.publishState p s.clock) }
      (some ⟨p, some (.client c .push), some (.writeQueue (D.myServer c))⟩)
  | publishState {c p t} (pc : s.client c = .publishState p t) :
    Step s (.client c)
      { s with
        toShared := s.toShared.updateParcelStatus p .queued t
        client := Function.update s.client c (.returned (.publish true)) }
      none
  | failPut {c p d} (pc : s.client c = .publishPut p d) :
    Step s (.fail c)
      { s with client := Function.update s.client c (.returned (.publish false)) }
      (some ⟨p, some (.client c .put), none⟩)
  | failPush {c p} (pc : s.client c = .publishPush p) :
    Step s (.fail c)
      { s with client := Function.update s.client c (.returned (.publish false)) }
      (some ⟨p, some (.client c .push), none⟩)
  | failState {c p t} (pc : s.client c = .publishState p t) :
    Step s (.fail c)
      { s with client := Function.update s.client c (.returned (.publish false)) } none
  | subscribePush {c p d} (pc : s.client c = .subscribePush p d) :
    Step s (.client c)
      { s with
        toShared := s.toShared.pushRead (D.myServer c) p
        client := Function.update s.client c (.waitGet p (.subscribe d)) }
      (some ⟨p, some (.client c .request), some (.readQueue (D.myServer c))⟩)
  | asyncPush {c p} (pc : s.client c = .asyncPush p) :
    Step s (.client c)
      { s with
        toShared := s.toShared.pushRead (D.myServer c) p
        client := Function.update s.client c (.returned (.asyncSubscribe true)) }
      (some ⟨p, some (.client c .request), some (.readQueue (D.myServer c))⟩)
  | failSubscribe {c p d} (pc : s.client c = .subscribePush p d) :
    Step s (.fail c)
      { s with client := Function.update s.client c (.waitGet p (.subscribe d)) }
      (some ⟨p, some (.client c .request), none⟩)
  | failAsync {c p} (pc : s.client c = .asyncPush p) :
    Step s (.fail c)
      { s with client := Function.update s.client c (.returned (.asyncSubscribe false)) }
      (some ⟨p, some (.client c .request), none⟩)
  | poll {c p after} (pc : s.client c = .waitGet p after)
    (pending : ∀ r, s.parselState p.key = some r → r.status ≠ .done) : Step s (.client c) s none
  | pollDone {c p after r} (pc : s.client c = .waitGet p after)
    (found : s.parselState p.key = some r) (completed : r.status = .done) :
    Step s (.client c) { s with client := Function.update s.client c (.waitErase p r after) } none
  | waitErase {c p r after} (pc : s.client c = .waitErase p r after) :
    Step s (.client c)
      { s with
        toShared := s.toShared.eraseState p
        client := Function.update s.client c (waitReturn p r after) }
      none
  | subscribeGet {c p d} (pc : s.client c = .subscribeGet p d) :
    Step s (.client c)
      { s with
        client := Function.update s.client c
          (.subscribeErase p (s.warehouse p.key).isSome
            (ByteFile.blit d (charStruct D.charStructSize (s.getData p)))) }
      none
  | subscribeErase {c p b d} (pc : s.client c = .subscribeErase p b d) :
    Step s (.client c)
      { s with
        toShared := s.toShared.deleteData p
        client := Function.update s.client c (.returned (.subscribe b d)) }
      none
  | getDataGet {c p d v} (pc : s.client c = .getDataGet p d) (found : s.warehouse p.key = some v) :
    Step s (.client c)
      { s with
        client := Function.update s.client c
          (.getDataErase p (ByteFile.blit d (charStruct D.charStructSize v))) }
      none
  | getDataMiss {c p d} (pc : s.client c = .getDataGet p d) (miss : s.warehouse p.key = none) :
    Step s (.client c)
      { s with client := Function.update s.client c (.returned (.getSubscribedData false d)) } none
  | getDataErase {c p d} (pc : s.client c = .getDataErase p d) :
    Step s (.client c)
      { s with
        toShared := s.toShared.deleteData p
        client := Function.update s.client c (.returned (.getSubscribedData true d)) }
      none
  | sourceWait {i} (pc : s.writeSource i = .wait) :
    Step s (.writeSource i)
      { s with
        writeSource := Function.update s.writeSource i
          (.pop (batchAmount (s.writeQueue (D.writeServer i)).length) []) }
      none
  | sourcePop {i amount l p q} (pc : s.writeSource i = .pop amount l) (more : 0 < amount)
    (queue : s.writeQueue (D.writeServer i) = p :: q) :
    Step s (.writeSource i)
      { s with
        writeQueue := Function.update s.writeQueue (D.writeServer i) q
        writeSource := Function.update s.writeSource i (.pop amount (l ++ [p])) }
      (some ⟨p, some (.writeQueue (D.writeServer i)), some (.writeBatch i)⟩)
  | sourceNext {i amount l} (pc : s.writeSource i = .pop amount l)
    (ends : 0 < amount → s.writeQueue (D.writeServer i) = []) :
    Step s (.writeSource i)
      { s with writeSource := Function.update s.writeSource i (.next l) } none
  | sourceGetData {i p rest} (pc : s.writeSource i = .getData p rest) :
    Step s (.writeSource i)
      { s with writeSource := Function.update s.writeSource i (.write p (s.getData p) rest) }
      (some ⟨p, some (.writeBatch i), some (.writeSource i .write)⟩)
  | sourceWrite {i p d rest} (pc : s.writeSource i = .write p d rest) :
    Step s (.writeSource i)
      { s with
        files := (D.writeJob i).source.write D s.files p (D.bytesAt i d p.dataSize)
        writeSource := Function.update s.writeSource i (.deleteData p rest) }
      (some ⟨p, some (.writeSource i .write), some (.writeSource i .deleteData)⟩)
  | sourceDelete {i p rest} (pc : s.writeSource i = .deleteData p rest) :
    Step s (.writeSource i)
      { s with
        toShared := s.toShared.deleteData p
        writeSource := Function.update s.writeSource i (.updateStatus p s.clock rest) }
      (some ⟨p, some (.writeSource i .deleteData), some (.writeSource i .updateStatus)⟩)
  | sourceStatus {i p t rest} (pc : s.writeSource i = .updateStatus p t rest) :
    Step s (.writeSource i)
      { s with
        toShared := s.toShared.updateParcelStatus p (D.writeJob i).source.status t
        writeSource := Function.update s.writeSource i (.emit p rest) }
      (some ⟨p, some (.writeSource i .updateStatus), some (.writeSource i .emit)⟩)
  | sourceEmit {i p rest} (pc : s.writeSource i = .emit p rest) :
    Step s (.writeSource i)
      { s with
        writeStream := s.writeStream ++ [(i, p)]
        writeInbox := if (D.writeJob i).source.linked then s.writeInbox ++ [p] else s.writeInbox
        writeSource := Function.update s.writeSource i (.next rest) }
      (some ⟨p, some (.writeSource i .emit), D.emitDst i⟩)
  | deliverWrite {j n p} (pc : s.writeSink j = .idle) (waiting : s.writeInbox[n]? = some p) :
    Step s (.deliverWrite j n)
      { s with
        writeInbox := s.writeInbox.eraseIdx n
        writeSink := Function.update s.writeSink j (.read p) }
      (some ⟨p, some .writeInbox, some (.writeSink j .read)⟩)
  | sinkRead {j p} (pc : s.writeSink j = .read p) :
    Step s (.writeSink j)
      { s with
        writeSink := Function.update s.writeSink j
          (.remove p (D.fileIOClient.read s.files (sinkSource p) (List.replicate p.dataSize 0))) }
      (some ⟨p, some (.writeSink j .read), some (.writeSink j .remove)⟩)
  | sinkRemove {j p d} (pc : s.writeSink j = .remove p d) :
    Step s (.writeSink j)
      { s with
        files := D.fileIOClient.remove s.files (sinkSource p)
        writeSink := Function.update s.writeSink j (.write p d) }
      (some ⟨p, some (.writeSink j .remove), some (.writeSink j .write)⟩)
  | sinkWrite {j p d} (pc : s.writeSink j = .write p d) :
    Step s (.writeSink j)
      { s with
        files := (D.getIOClient p.storageIndex).write s.files { p with position := 0 } d
          { sinkSource p with id := p.id, position := p.position }
        writeSink := Function.update s.writeSink j (.updateStatus p s.clock) }
      (some ⟨p, some (.writeSink j .write), some (.writeSink j .updateStatus)⟩)
  | sinkStatus {j p t} (pc : s.writeSink j = .updateStatus p t) :
    Step s (.writeSink j)
      { s with
        toShared := s.toShared.updateParcelStatus p .done t
        writeSink := Function.update s.writeSink j .idle }
      (some ⟨p, some (.writeSink j .updateStatus), none⟩)
  | readWait {i} (pc : s.readSource i = .wait) :
    Step s (.readSource i)
      { s with
        readSource := Function.update s.readSource i
          (.pop (batchAmount (s.readQueue (D.readServer i)).length) []) }
      none
  | readPop {i amount l p q} (pc : s.readSource i = .pop amount l) (more : 0 < amount)
    (queue : s.readQueue (D.readServer i) = p :: q) :
    Step s (.readSource i)
      { s with
        readQueue := Function.update s.readQueue (D.readServer i) q
        readSource := Function.update s.readSource i (.pop amount (l ++ [p])) }
      (some ⟨p, some (.readQueue (D.readServer i)), some (.readBatch i)⟩)
  | readNext {i amount l} (pc : s.readSource i = .pop amount l)
    (ends : 0 < amount → s.readQueue (D.readServer i) = []) :
    Step s (.readSource i)
      { s with readSource := Function.update s.readSource i (.next s.clock l) } none
  | readStatus {i p t rest} (pc : s.readSource i = .updateStatus p t rest) :
    Step s (.readSource i)
      { s with
        toShared := s.toShared.updateParcelStatus p .inProgress t
        readSource := Function.update s.readSource i (.emit p rest) }
      (some ⟨p, some (.readBatch i), some (.readEmit i)⟩)
  | readEmit {i p rest} (pc : s.readSource i = .emit p rest) :
    Step s (.readSource i)
      { s with
        readInbox := s.readInbox ++ [p]
        readSource := Function.update s.readSource i (.next s.clock rest) }
      (some ⟨p, some (.readEmit i), some .readInbox⟩)
  | deliverRead {j n p} (pc : s.readSink j = .idle) (waiting : s.readInbox[n]? = some p) :
    Step s (.deliverRead j n)
      { s with
        readInbox := s.readInbox.eraseIdx n
        readSink := Function.update s.readSink j (.read p) }
      (some ⟨p, some .readInbox, some (.readSink j .read)⟩)
  | readSinkRead {j p} (pc : s.readSink j = .read p) :
    Step s (.readSink j)
      { s with
        readSink := Function.update s.readSink j
          (.putData p (readSinkData D s.files p)) }
      (some ⟨p, some (.readSink j .read), some (.readSink j .putData)⟩)
  | readSinkPut {j p d} (pc : s.readSink j = .putData p d) :
    Step s (.readSink j)
      { s with
        toShared := s.toShared.putData p d
        readSink := Function.update s.readSink j (.updateStatus p s.clock) }
      (some ⟨p, some (.readSink j .putData), some (.readSink j .updateStatus)⟩)
  | readSinkStatus {j p t} (pc : s.readSink j = .updateStatus p t) :
    Step s (.readSink j)
      { s with
        toShared := s.toShared.updateParcelStatus p .done t
        readSink := Function.update s.readSink j .idle }
      (some ⟨p, some (.readSink j .updateStatus), none⟩)
  | tick (now : ℕ) : Step s (.tick now) { s with clock := now } none

variable {D} {s s' : Sys} {a : Action} {m : Option Handover}

theorem clientStep_sound {c : ℕ} {sh : Shared} {pc : ClientPC}
    (h : clientStep D c s.toShared (s.client c) = some (sh, pc)) :
    ∃ m, Step D s (.client c)
      { s with toShared := sh, client := Function.update s.client c pc } m := by
  cases hpc : s.client c <;> rw [hpc] at h
  case idle | returned => simp [clientStep] at h
  case publishPut p d =>
    obtain ⟨rfl, rfl⟩ := Prod.mk.inj (Option.some.inj h)
    exact ⟨_, .publishPut hpc⟩
  case publishPush p =>
    obtain ⟨rfl, rfl⟩ := Prod.mk.inj (Option.some.inj h)
    exact ⟨_, .publishPush hpc⟩
  case publishState p t =>
    obtain ⟨rfl, rfl⟩ := Prod.mk.inj (Option.some.inj h)
    exact ⟨_, .publishState hpc⟩
  case subscribePush p d =>
    obtain ⟨rfl, rfl⟩ := Prod.mk.inj (Option.some.inj h)
    exact ⟨_, .subscribePush hpc⟩
  case asyncPush p =>
    obtain ⟨rfl, rfl⟩ := Prod.mk.inj (Option.some.inj h)
    exact ⟨_, .asyncPush hpc⟩
  case waitGet p after =>
    have again : { s with client := Function.update s.client c (.waitGet p after) } = s := by
      rw [← hpc, Function.update_eq_self]
    simp only [clientStep] at h
    split at h
    next r found =>
      split_ifs at h with completed <;> obtain ⟨rfl, rfl⟩ := Prod.mk.inj (Option.some.inj h)
      · exact ⟨_, .pollDone hpc found completed⟩
      · refine ⟨none, again.symm ▸ .poll hpc fun r' hr' => ?_⟩
        obtain rfl := Option.some.inj (found.symm.trans hr')
        exact completed
    next miss =>
      obtain ⟨rfl, rfl⟩ := Prod.mk.inj (Option.some.inj h)
      exact ⟨none, again.symm ▸ .poll hpc fun r' hr' => by simp [miss] at hr'⟩
  case waitErase p r after =>
    obtain ⟨rfl, rfl⟩ := Prod.mk.inj (Option.some.inj h)
    exact ⟨_, .waitErase hpc⟩
  case subscribeGet p d =>
    obtain ⟨rfl, rfl⟩ := Prod.mk.inj (Option.some.inj h)
    exact ⟨_, .subscribeGet hpc⟩
  case subscribeErase p b d =>
    obtain ⟨rfl, rfl⟩ := Prod.mk.inj (Option.some.inj h)
    exact ⟨_, .subscribeErase hpc⟩
  case getDataGet p d =>
    simp only [clientStep] at h
    split at h
    next v found =>
      obtain ⟨rfl, rfl⟩ := Prod.mk.inj (Option.some.inj h)
      exact ⟨_, .getDataGet hpc found⟩
    next miss =>
      obtain ⟨rfl, rfl⟩ := Prod.mk.inj (Option.some.inj h)
      exact ⟨_, .getDataMiss hpc miss⟩
  case getDataErase p d =>
    obtain ⟨rfl, rfl⟩ := Prod.mk.inj (Option.some.inj h)
    exact ⟨_, .getDataErase hpc⟩

theorem clientFail_sound {c : ℕ} {pc : ClientPC} (h : clientFail (s.client c) = some pc) :
    ∃ m, Step D s (.fail c) { s with client := Function.update s.client c pc } m := by
  cases hpc : s.client c <;> rw [hpc] at h
  case publishPut p d => exact Option.some.inj h ▸ ⟨_, .failPut hpc⟩
  case publishPush p => exact Option.some.inj h ▸ ⟨_, .failPush hpc⟩
  case publishState p t => exact Option.some.inj h ▸ ⟨_, .failState hpc⟩
  case subscribePush p d => exact Option.some.inj h ▸ ⟨_, .failSubscribe hpc⟩
  case asyncPush p => exact Option.some.inj h ▸ ⟨_, .failAsync hpc⟩
  all_goals simp [clientFail] at h

theorem queueSourceStep_sound (s : Sys) (i : ℕ) :
    ∃ m, Step D s (.writeSource i)
      { s with
        toShared := (queueSourceStep (D.writeJob i).source D i (D.writeServer i) s.toShared
          (s.writeSource i)).1
        writeSource := Function.update s.writeSource i
          (queueSourceStep (D.writeJob i).source D i (D.writeServer i) s.toShared
            (s.writeSource i)).2 } m := by
  cases hpc : s.writeSource i with
  | wait => exact ⟨_, .sourceWait hpc⟩
  | pop amount l =>
    by_cases more : 0 < amount
    · cases queue : s.writeQueue (D.writeServer i) with
      | nil =>
        simp only [queueSourceStep, more, queue, if_true]
        exact ⟨_, .sourceNext hpc fun _ => queue⟩
      | cons p q =>
        simp only [queueSourceStep, more, queue, if_true]
        exact ⟨_, .sourcePop hpc more queue⟩
    · simp only [queueSourceStep, more, if_false]
      exact ⟨_, .sourceNext hpc fun h => absurd h more⟩
  | getData p rest => exact ⟨_, .sourceGetData hpc⟩
  | write p d rest => exact ⟨_, .sourceWrite hpc⟩
  | deleteData p rest => exact ⟨_, .sourceDelete hpc⟩
  | updateStatus p t rest => exact ⟨_, .sourceStatus hpc⟩
  | emit p rest => exact ⟨_, .sourceEmit hpc⟩

theorem writeSinkStep_sound {j : ℕ} {sh : Shared} {pc : WriteSinkPC}
    (h : writeSinkStep D s.toShared (s.writeSink j) = some (sh, pc)) :
    ∃ m, Step D s (.writeSink j)
      { s with toShared := sh, writeSink := Function.update s.writeSink j pc } m := by
  cases hpc : s.writeSink j <;> rw [hpc] at h
  case idle => simp [writeSinkStep] at h
  all_goals obtain ⟨rfl, rfl⟩ := Prod.mk.inj (Option.some.inj h)
  case read p => exact ⟨_, .sinkRead hpc⟩
  case remove p d => exact ⟨_, .sinkRemove hpc⟩
  case write p d => exact ⟨_, .sinkWrite hpc⟩
  case updateStatus p t => exact ⟨_, .sinkStatus hpc⟩

theorem readSourceStep_sound (s : Sys) (i : ℕ) :
    ∃ m, Step D s (.readSource i)
      { s with
        toShared := (readSourceStep (D.readServer i) s.toShared (s.readSource i)).1
        readSource := Function.update s.readSource i
          (readSourceStep (D.readServer i) s.toShared (s.readSource i)).2 } m := by
  cases hpc : s.readSource i with
  | wait => exact ⟨_, .readWait hpc⟩
  | pop amount l =>
    by_cases more : 0 < amount
    · cases queue : s.readQueue (D.readServer i) with
      | nil =>
        simp only [readSourceStep, more, queue, if_true]
        exact ⟨_, .readNext hpc fun _ => queue⟩
      | cons p q =>
        simp only [readSourceStep, more, queue, if_true]
        exact ⟨_, .readPop hpc more queue⟩
    · simp only [readSourceStep, more, if_false]
      exact ⟨_, .readNext hpc fun h => absurd h more⟩
  | updateStatus p t rest => exact ⟨_, .readStatus hpc⟩
  | emit p rest => exact ⟨_, .readEmit hpc⟩

theorem readSinkStep_sound {j : ℕ} {sh : Shared} {pc : ReadSinkPC}
    (h : readSinkStep D s.toShared (s.readSink j) = some (sh, pc)) :
    ∃ m, Step D s (.readSink j)
      { s with toShared := sh, readSink := Function.update s.readSink j pc } m := by
  cases hpc : s.readSink j <;> rw [hpc] at h
  case idle => simp [readSinkStep] at h
  all_goals obtain ⟨rfl, rfl⟩ := Prod.mk.inj (Option.some.inj h)
  case read p => exact ⟨_, .readSinkRead hpc⟩
  case putData p d => exact ⟨_, .readSinkPut hpc⟩
  case updateStatus p t => exact ⟨_, .readSinkStatus hpc⟩

/-- Every action of the system is one of the listed steps. -/
theorem step_sound (h : step D s a = some s') : ∃ m, Step D s a s' m := by
  cases a with
  | call c r =>
    simp only [step] at h
    split_ifs at h with free
    obtain rfl := Option.some.inj h
    exact ⟨_, .call c r free⟩
  | client c =>
    obtain ⟨⟨sh, pc⟩, hstep, rfl⟩ := Option.map_eq_some_iff.1 h
    exact clientStep_sound hstep
  | fail c =>
    obtain ⟨pc, hfail, rfl⟩ := Option.map_eq_some_iff.1 h
    exact clientFail_sound hfail
  | writeSource i => exact Option.some.inj h ▸ queueSourceStep_sound s i
  | deliverWrite j n =>
    simp only [step] at h
    split at h
    next p hpc waiting => exact Option.some.inj h ▸ ⟨_, .deliverWrite hpc waiting⟩
    next => simp at h
  | writeSink j =>
    obtain ⟨⟨sh, pc⟩, hstep, rfl⟩ := Option.map_eq_some_iff.1 h
    exact writeSinkStep_sound hstep
  | readSource i => exact Option.some.inj h ▸ readSourceStep_sound s i
  | deliverRead j n =>
    simp only [step] at h
    split at h
    next p hpc waiting => exact Option.some.inj h ▸ ⟨_, .deliverRead hpc waiting⟩
    next => simp at h
  | readSink j =>
    obtain ⟨⟨sh, pc⟩, hstep, rfl⟩ := Option.map_eq_some_iff.1 h
    exact readSinkStep_sound hstep
  | tick now => exact Option.some.inj h ▸ ⟨_, .tick now⟩

end Rhea
