import Rhea.Parcel

/-!
# The IO clients and the staging files

The IO clients are not part of this repository; `write`, `read` and `remove` are what the tasks rely
on.  `Write(source, destination)` overlays `data_size_` bytes of the source's buffer, from
`source.position_`, onto the file `destination.id_` at `destination.position_`.
`Read(source, destination)` fills the destination's buffer with what the file `source.id_` has from
`source.position_` on; a missing file leaves the buffer as it is.  `Remove(source)` deletes the file.

`Deployment` fixes what the processes are configured with.
-/

namespace Rhea

open ByteFile

/-- `IOClient::Write(source, destination)`; `buffer` is what `source.buffer_` points to. -/
def IOClient.write (client : IOClient) (fs : Files) (source : Parcel) (buffer : Bytes)
    (destination : Parcel) : Files :=
  Function.update fs (client, destination.id)
    (some (overlay ((fs (client, destination.id)).getD []) destination.position
      (slice buffer source.position source.dataSize)))

/-- `IOClient::Read(source, destination)`: the new content of the destination's `buffer`. -/
def IOClient.read (client : IOClient) (fs : Files) (source : Parcel) (buffer : Bytes) : Bytes :=
  match fs (client, source.id) with
  | none => buffer
  | some f => blit buffer (slice f source.position source.dataSize)

/-- `IOClient::Remove(source)` -/
def IOClient.remove (client : IOClient) (fs : Files) (source : Parcel) : Files :=
  Function.update fs (client, source.id) none

/-- The two jobs that empty a write queue: `RheaWriteJob` and `IOFWriteJob`. -/
inductive WriteJob
  | rhea
  | iof
  deriving DecidableEq, Repr

/-- How the processes are set up. -/
structure Deployment where
  /-- `BASKET_CONF->MY_SERVER` of each client -/
  myServer : ℕ → ℕ
  /-- the job each write collector belongs to -/
  writeJob : ℕ → WriteJob
  /-- `server_id` of each write collector -/
  writeServer : ℕ → ℕ
  /-- `server_id` of each read collector -/
  readServer : ℕ → ℕ
  /-- `IOFactory::GetIOClient(storage_index_)` -/
  getIOClient : ℕ → IOClient
  /-- the `FileIOClient` that holds the staging files -/
  fileIOClient : IOClient
  /-- `std::hash<std::string>` -/
  hash : String → ℕ
  /-- the capacity of `CharStruct` -/
  charStructSize : ℕ
  /-- what the memory of each write collector holds behind the characters of a string -/
  beyond : ℕ → ℕ → UInt8

/-- The suffix between a file's name and an offset in the name of a staging file. -/
def stagingSeparator : String := "_temp"

/-- `id_ += "_temp" + std::to_string(position_)` -/
def Parcel.stagingName (parcel : Parcel) : String :=
  Numbered.numbered stagingSeparator parcel.id parcel.position

namespace Deployment

variable (D : Deployment)

/-- The file to which a parcel is published, or from which it is read. -/
def destination (parcel : Parcel) : Location :=
  (D.getIOClient parcel.storageIndex, parcel.id)

/-- The file in which a parcel's bytes are staged. -/
def staging (parcel : Parcel) : Location := (D.fileIOClient, parcel.stagingName)

/-- The `size` bytes at `data.data()` in the memory of write collector `i`: the characters, and behind
them the terminating zero and whatever follows it. -/
def bytesAt (i : ℕ) (data : Bytes) (size : ℕ) : Bytes :=
  data.take size ++
    (List.range (size - data.length)).map fun n => if n = 0 then 0 else D.beyond i n

/-- One server and one name space of files, with every collector running the same job. -/
def single (job : WriteJob) : Deployment where
  myServer _ := 0
  writeJob _ := job
  writeServer _ := 0
  readServer _ := 0
  getIOClient _ := 0
  fileIOClient := 0
  hash := String.length
  charStructSize := 64
  beyond _ _ := 0

end Deployment

theorem Deployment.bytesAt_length (D : Deployment) (i : ℕ) (data : Bytes) (size : ℕ) :
    (D.bytesAt i data size).length = size := by
  simp only [Deployment.bytesAt, List.length_append, List.length_take, List.length_map,
    List.length_range]
  omega

theorem Deployment.bytesAt_of_length {D : Deployment} {data : Bytes} {size : ℕ}
    (full : data.length = size) (i : ℕ) : D.bytesAt i data size = data := by
  unfold Deployment.bytesAt
  rw [full, Nat.sub_self, List.take_of_length_le full.le]
  exact List.append_nil data

/-- A staging name determines the file and the offset it was made of. -/
theorem Parcel.stagingName_inj {p q : Parcel} (h : p.stagingName = q.stagingName) :
    p.id = q.id ∧ p.position = q.position :=
  Numbered.numbered_inj ⟨'p', by decide, by decide⟩ h

theorem Deployment.staging_inj {D : Deployment} {p q : Parcel} (h : D.staging p = D.staging q) :
    p.id = q.id ∧ p.position = q.position :=
  Parcel.stagingName_inj (congrArg Prod.snd h)

end Rhea
