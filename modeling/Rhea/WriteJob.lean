import Rhea.Client

/-!
# The write jobs

`RheaWriteQueueSourceTask` stages every parcel in a file of its own and emits it;
`RheaWriteSinkTask` moves the staged bytes to the destination.  `IOFWriteQueueSourceTask` writes
every parcel to its destination directly.  The two source tasks have one loop: `queueSourceStep`
with the write, the recorded status and the presence of a next stage as parameters.
-/

namespace Rhea

open ByteFile

/-- The program point of a write collector. -/
inductive WriteSourcePC
  /-- `loop_cond_.wait_for` -/
  | wait
  /-- the loop of `GetWriteParsel`: `amount`, and the parcels popped so far -/
  | pop (amount : ℚ) (parcels : List Parcel)
  /-- `client->GetData(parcel)`; `rest` is left of the batch -/
  | getData (parcel : Parcel) (rest : List Parcel)
  /-- `Write(source,destination)` -/
  | write (parcel : Parcel) (data : Bytes) (rest : List Parcel)
  /-- `client->DeleteData(parcel)` -/
  | deleteData (parcel : Parcel) (rest : List Parcel)
  /-- `client->UpdateParcelStatus(parcel, ...)`, the state made at `timestamp` -/
  | updateStatus (parcel : Parcel) (timestamp : ℕ) (rest : List Parcel)
  /-- `emit(job_id_, id_, parcel)` -/
  | emit (parcel : Parcel) (rest : List Parcel)
  deriving DecidableEq

/-- The amount `GetWriteParsel` and `GetReadParsel` compute from the size of the queue. -/
def batchAmount (size : ℕ) : ℚ :=
  if (size : ℚ) * (1 / 10) = 0 then size else size * (1 / 10)

/-- The head of the loop over the popped parcels. -/
def WriteSourcePC.next : List Parcel → WriteSourcePC
  | [] => .wait
  | parcel :: rest => .getData parcel rest

/-- What distinguishes the two source tasks. -/
structure SourceTask where
  /-- the `Write` of what `source.buffer_` points to -/
  write : Deployment → Files → Parcel → Bytes → Files
  /-- the status recorded after it -/
  status : TaskStatus
  /-- whether the job has a task after the source -/
  linked : Bool

/-- The staging `Write` of `RheaWriteQueueSourceTask::Run`. -/
def stagingWrite (D : Deployment) (fs : Files) (parcel : Parcel) (buffer : Bytes) : Files :=
  let destination := { parcel with id := parcel.stagingName, position := 0 }
  let source := { parcel with position := 0 }
  D.fileIOClient.write fs source buffer destination

/-- The `Write` of `IOFWriteQueueSourceTask::Run`. -/
def directWrite (D : Deployment) (fs : Files) (parcel : Parcel) (buffer : Bytes) : Files :=
  let destination := parcel
  let source := { parcel with position := 0 }
  (D.getIOClient parcel.storageIndex).write fs source buffer destination

/-- `RheaWriteQueueSourceTask` -/
def rheaWriteQueueSourceTask : SourceTask := ⟨stagingWrite, .inProgress, true⟩

/-- `IOFWriteQueueSourceTask`; `IOFWriteJob` links nothing behind it. -/
def iofWriteQueueSourceTask : SourceTask := ⟨directWrite, .done, false⟩

/-- The source task of a write job. -/
def WriteJob.source : WriteJob → SourceTask
  | .rhea => rheaWriteQueueSourceTask
  | .iof => iofWriteQueueSourceTask

/-- One operation of the `Run` of a write collector with number `i` that empties `server`. -/
def queueSourceStep (task : SourceTask) (D : Deployment) (i server : ℕ) (sh : Shared) :
    WriteSourcePC → Shared × WriteSourcePC
  | .wait => (sh, .pop (batchAmount (sh.writeQueue server).length) [])
  | .pop amount parcels =>
    -- `amount` is not changed by the loop
    if 0 < amount then
      match sh.writeQueue server with
      | [] => (sh, .next parcels)
      | parcel :: queue =>
        ({ sh with writeQueue := Function.update sh.writeQueue server queue },
          .pop amount (parcels ++ [parcel]))
    else (sh, .next parcels)
  | .getData parcel rest => (sh, .write parcel (sh.getData parcel) rest)
  | .write parcel data rest =>
    -- `source.buffer_` is `data.data()`, also when `GetData` has found nothing
    ({ sh with files := task.write D sh.files parcel (D.bytesAt i data parcel.dataSize) },
      .deleteData parcel rest)
  | .deleteData parcel rest => (sh.deleteData parcel, .updateStatus parcel sh.clock rest)
  | .updateStatus parcel timestamp rest =>
    (sh.updateParcelStatus parcel task.status timestamp, .emit parcel rest)
  | .emit parcel rest =>
    ({ sh with
        writeStream := sh.writeStream ++ [(i, parcel)]
        writeInbox := if task.linked then sh.writeInbox ++ [parcel] else sh.writeInbox },
      .next rest)

/-- `RheaKeyByTask::Run` -/
def rheaKeyByTask (D : Deployment) (event : Parcel) : ℕ := D.hash event.id

/-- The program point of a `RheaWriteSinkTask`. -/
inductive WriteSinkPC
  | idle
  /-- `redis_client->Read(source,destination)` -/
  | read (event : Parcel)
  /-- `redis_client->Remove(source)`, the bytes read in `data` -/
  | remove (event : Parcel) (data : Bytes)
  /-- `Write(destination,source)` -/
  | write (event : Parcel) (data : Bytes)
  /-- `write_client.UpdateParcelStatus(event, DONE)`, the state made at `timestamp` -/
  | updateStatus (event : Parcel) (timestamp : ℕ)
  deriving DecidableEq

/-- The source parcel of `RheaWriteSinkTask::Run` while it names the staging file. -/
def sinkSource (event : Parcel) : Parcel :=
  { event with id := event.stagingName, position := 0 }

/-- One operation of `RheaWriteSinkTask::Run`. -/
def writeSinkStep (D : Deployment) (sh : Shared) : WriteSinkPC → Option (Shared × WriteSinkPC)
  | .idle => none
  | .read event =>
    let data := D.fileIOClient.read sh.files (sinkSource event) (List.replicate event.dataSize 0)
    some (sh, .remove event data)
  | .remove event data =>
    some ({ sh with files := D.fileIOClient.remove sh.files (sinkSource event) },
      .write event data)
  | .write event data =>
    let destination := { event with position := 0 }
    let source := { sinkSource event with id := event.id, position := event.position }
    some ({ sh with
        files := (D.getIOClient event.storageIndex).write sh.files destination data source },
      .updateStatus event sh.clock)
  | .updateStatus event timestamp => some (sh.updateParcelStatus event .done timestamp, .idle)

end Rhea
