import Rhea.Lib.ByteFile
import Rhea.Lib.Numbered

/-!
# Parcels and what the processes share

`Parcel` is the record a client hands to the workers; its key, the pair of `id_` and `unique_id`
that `operator==` compares, indexes the two maps.  `Shared` collects what all processes act on: the
basket maps and queues, the file name spaces, the clock, and the channels behind `emit`.

The `size_t` and `uint16_t` fields are natural numbers: nothing in the client or in the tasks
computes on them modulo a word size.  The pointer `buffer_` is local to a process; the operations
that use it take the buffer as an argument.
-/

namespace Rhea

/-- `DataHolder`, a `std::string` of arbitrary bytes. -/
abbrev Bytes := List UInt8

/-- `OperationType`, as the applications set it. -/
inductive OperationType
  | publish
  | subscribe
  deriving DecidableEq, Repr

/-- `Parcel`, with the fields of `Event`. -/
structure Parcel where
  id : String
  position : ℕ
  dataSize : ℕ
  storageIndex : ℕ := 0
  uniqueId : ℕ
  type : OperationType := .publish
  deriving DecidableEq, Repr

/-- What `Parcel::operator==` compares. -/
abbrev Key := String × ℕ

/-- The key under which the maps store a parcel. -/
def Parcel.key (parcel : Parcel) : Key := (parcel.id, parcel.uniqueId)

/-- `TaskStatus`, in the order in which a request passes through it. -/
inductive TaskStatus
  | none
  | queued
  | inProgress
  | done
  deriving DecidableEq, Repr

/-- The position of a status in the course of a request. -/
def TaskStatus.rank : TaskStatus → ℕ
  | none => 0
  | queued => 1
  | inProgress => 2
  | done => 3

instance : Preorder TaskStatus := .lift TaskStatus.rank

instance (a b : TaskStatus) : Decidable (a ≤ b) := inferInstanceAs (Decidable (a.rank ≤ b.rank))

theorem TaskStatus.le_done (a : TaskStatus) : a ≤ .done := by
  cases a <;> decide

/-- `ParcelState`; the timestamp is the `time(NULL)` at which it was made. -/
structure ParcelState where
  status : TaskStatus
  timestamp : ℕ
  deriving DecidableEq, Repr

/-- The name space of files on which an IO client works. -/
abbrev IOClient := ℕ

/-- A file: the name space of an IO client and a name. -/
abbrev Location := IOClient × String

/-- The files of all name spaces; `none` where a file does not exist. -/
abbrev Files := Location → Option Bytes

/-- What the processes share. -/
structure Shared where
  /-- `DATA_WAREHOUSE` -/
  warehouse : Key → Option Bytes
  /-- `WRITE_QUEUE`, by server -/
  writeQueue : ℕ → List Parcel
  /-- `READ_QUEUE`, by server -/
  readQueue : ℕ → List Parcel
  /-- `PARSEL_STATE` -/
  parselState : Key → Option ParcelState
  files : Files
  /-- what `time(NULL)` returns -/
  clock : ℕ
  /-- every `emit` of a write collector so far, in order -/
  writeStream : List (ℕ × Parcel)
  /-- emitted by write collectors and not yet given to a sink -/
  writeInbox : List Parcel
  /-- emitted by read collectors and not yet given to a sink -/
  readInbox : List Parcel

/-- `warehouse->Put` -/
@[simp] def Shared.putData (sh : Shared) (parcel : Parcel) (data : Bytes) : Shared :=
  { sh with warehouse := Function.update sh.warehouse parcel.key (some data) }

/-- `warehouse->Erase` -/
@[simp] def Shared.deleteData (sh : Shared) (parcel : Parcel) : Shared :=
  { sh with warehouse := Function.update sh.warehouse parcel.key none }

/-- `rhea::Client::GetData`: a miss yields the default, an empty string. -/
def Shared.getData (sh : Shared) (parcel : Parcel) : Bytes :=
  (sh.warehouse parcel.key).getD []

/-- `parsel_state->Put` of `rhea::Client::UpdateParcelStatus`, the state made at `timestamp`. -/
@[simp] def Shared.updateParcelStatus (sh : Shared) (parcel : Parcel) (status : TaskStatus)
    (timestamp : ℕ) : Shared :=
  { sh with parselState := Function.update sh.parselState parcel.key (some ⟨status, timestamp⟩) }

/-- `parsel_state->Erase` -/
@[simp] def Shared.eraseState (sh : Shared) (parcel : Parcel) : Shared :=
  { sh with parselState := Function.update sh.parselState parcel.key none }

/-- `write_queue->Push(parcel, server)` -/
@[simp] def Shared.pushWrite (sh : Shared) (server : ℕ) (parcel : Parcel) : Shared :=
  { sh with writeQueue :=
      Function.update sh.writeQueue server (sh.writeQueue server ++ [parcel]) }

/-- `read_queue->Push(parcel, server)` -/
@[simp] def Shared.pushRead (sh : Shared) (server : ℕ) (parcel : Parcel) : Shared :=
  { sh with readQueue :=
      Function.update sh.readQueue server (sh.readQueue server ++ [parcel]) }

end Rhea
