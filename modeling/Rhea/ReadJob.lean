import Rhea.WriteJob

/-!
# The read job

`RheaReadQueueSourceTask` pops read requests and emits them; `RheaReadSinkTask` reads the file,
stores the bytes in the warehouse and records that the request is done.
-/

namespace Rhea

open ByteFile

/-- The program point of a `RheaReadQueueSourceTask`. -/
inductive ReadSourcePC
  /-- `loop_cond_.wait_for` -/
  | wait
  /-- the loop of `GetReadParsel` -/
  | pop (amount : ℚ) (parcels : List Parcel)
  /-- `client->UpdateParcelStatus(parcel, IN_PROGRESS)`, the state made at `timestamp`; `rest` is
  left of the batch -/
  | updateStatus (parcel : Parcel) (timestamp : ℕ) (rest : List Parcel)
  /-- `emit(job_id_, id_, parcel)` -/
  | emit (parcel : Parcel) (rest : List Parcel)
  deriving DecidableEq

/-- The head of the loop over the popped parcels, at the time `now`. -/
def ReadSourcePC.next (now : ℕ) : List Parcel → ReadSourcePC
  | [] => .wait
  | parcel :: rest => .updateStatus parcel now rest

/-- One operation of `RheaReadQueueSourceTask::Run` on the queue of `server`. -/
def readSourceStep (server : ℕ) (sh : Shared) : ReadSourcePC → Shared × ReadSourcePC
  | .wait => (sh, .pop (batchAmount (sh.readQueue server).length) [])
  | .pop amount parcels =>
    if 0 < amount then
      match sh.readQueue server with
      | [] => (sh, .next sh.clock parcels)
      | parcel :: queue =>
        ({ sh with readQueue := Function.update sh.readQueue server queue },
          .pop amount (parcels ++ [parcel]))
    else (sh, .next sh.clock parcels)
  | .updateStatus parcel timestamp rest =>
    (sh.updateParcelStatus parcel .inProgress timestamp, .emit parcel rest)
  | .emit parcel rest =>
    ({ sh with readInbox := sh.readInbox ++ [parcel] }, .next sh.clock rest)

/-- The program point of a `RheaReadSinkTask`. -/
inductive ReadSinkPC
  | idle
  /-- `Read(source,destination)` -/
  | read (event : Parcel)
  /-- `client->PutData(source,data)` -/
  | putData (event : Parcel) (data : Bytes)
  /-- `client->UpdateParcelStatus(event, DONE)`, the state made at `timestamp` -/
  | updateStatus (event : Parcel) (timestamp : ℕ)
  deriving DecidableEq

/-- The bytes `RheaReadSinkTask::Run` reads for a request. -/
def readSinkData (D : Deployment) (fs : Files) (event : Parcel) : Bytes :=
  (D.getIOClient event.storageIndex).read fs event (List.replicate event.dataSize 0)

theorem readSinkData_length (D : Deployment) (fs : Files) (event : Parcel) :
    (readSinkData D fs event).length = event.dataSize := by
  have size : (List.replicate event.dataSize (0 : UInt8)).length = event.dataSize := by simp
  unfold readSinkData IOClient.read
  split
  · exact size
  · rw [blit_length (by simp only [size]; exact slice_length_le ..), size]

/-- What is read are the bytes of the file from the requested position on, and zeros for those that it
does not have. -/
theorem readSinkData_eq (D : Deployment) (fs : Files) (event : Parcel) :
    readSinkData D fs event = blit (List.replicate event.dataSize 0)
      (slice ((fs (D.destination event)).getD []) event.position event.dataSize) := by
  show IOClient.read _ fs event _ = _
  unfold IOClient.read Deployment.destination
  cases fs (D.getIOClient event.storageIndex, event.id) with
  | none => simp [blit, slice]
  | some f => rfl

/-- One operation of `RheaReadSinkTask::Run`. -/
def readSinkStep (D : Deployment) (sh : Shared) : ReadSinkPC → Option (Shared × ReadSinkPC)
  | .idle => none
  | .read event => some (sh, .putData event (readSinkData D sh.files event))
  | .putData event data => some (sh.putData event data, .updateStatus event sh.clock)
  | .updateStatus event timestamp => some (sh.updateParcelStatus event .done timestamp, .idle)

end Rhea
