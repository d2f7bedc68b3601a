import Rhea.Parcel
import Rhea.Lib.Msgpack

/-!
# The codec of a parcel

A `Parcel` travels as an array of five entries; `type_` is not one of them.  Decoding therefore gives
back the parcel up to `type_`, which remains what it was in the parcel that is decoded into
(`decoded_eq`).  The key is kept, so that the maps are not affected; no operation of the client or of
the tasks reads `type_`.
-/

namespace Rhea

open Msgpack

/-- The values of the fields fit the types of the source: `size_t`, and `uint16_t` for
`storage_index_`. -/
structure Parcel.Representable (parcel : Parcel) : Prop where
  position : parcel.position < 2 ^ 64
  dataSize : parcel.dataSize < 2 ^ 64
  storageIndex : parcel.storageIndex < 2 ^ 16
  uniqueId : parcel.uniqueId < 2 ^ 64

/-- `pack<Parcel>` -/
def packParcel (o : Stream) (input : Parcel) : Stream :=
  let o := packArray o 5
  let o := pack .string o input.id
  let o := pack (.unsigned 64) o (.ofNat 64 input.position)
  let o := pack (.unsigned 64) o (.ofNat 64 input.dataSize)
  let o := pack (.unsigned 16) o (.ofNat 16 input.storageIndex)
  pack (.unsigned 64) o (.ofNat 64 input.uniqueId)

/-- `object_with_zone<Parcel>` -/
def objectWithZoneParcel (input : Parcel) : Object :=
  .array [object .string input.id,
    object (.unsigned 64) (.ofNat 64 input.position),
    object (.unsigned 64) (.ofNat 64 input.dataSize),
    object (.unsigned 16) (.ofNat 16 input.storageIndex),
    object (.unsigned 64) (.ofNat 64 input.uniqueId)]

/-- `convert<Parcel>`, which decodes into `input`. -/
def convertParcel (o : Object) (input : Parcel) : Option Parcel := do
  let id ← (← o.ptr 0).as .string
  let position ← (← o.ptr 1).as (.unsigned 64)
  let dataSize ← (← o.ptr 2).as (.unsigned 64)
  let storageIndex ← (← o.ptr 3).as (.unsigned 16)
  let uniqueId ← (← o.ptr 4).as (.unsigned 64)
  some { input with
    id := id
    position := position.toNat
    dataSize := dataSize.toNat
    storageIndex := storageIndex.toNat
    uniqueId := uniqueId.toNat }

/-- `std::hash<Parcel>`, over the hash functions of its two fields. -/
def Parcel.hash (charStruct : String → UInt64) (size : UInt64 → UInt64) (k : Parcel) : Int32 :=
  (charStruct k.id ^^^ size k.uniqueId.toUInt64).toUInt32.toInt32

variable {p q fresh : Parcel} {d : Bytes}

theorem tokens_objectWithZoneParcel (p : Parcel) :
    (objectWithZoneParcel p).tokens = packParcel [] p := rfl

theorem unpack_packParcel (p : Parcel) :
    unpack (packParcel [] p) = some (objectWithZoneParcel p) := by
  rw [← tokens_objectWithZoneParcel]
  exact unpack_tokens _

theorem toNat_ofNat {w n : ℕ} (fits : n < 2 ^ w) : (BitVec.ofNat w n).toNat = n := by
  rw [BitVec.toNat_ofNat]
  exact Nat.mod_eq_of_lt fits

/-- The entries of the array are the fields of the decoded parcel. -/
theorem convertParcel_array (id : String) (position dataSize uniqueId : BitVec 64)
    (storageIndex : BitVec 16) :
    convertParcel (.array [object .string id, object (.unsigned 64) position,
      object (.unsigned 64) dataSize, object (.unsigned 16) storageIndex,
      object (.unsigned 64) uniqueId]) fresh =
    some { fresh with
      id := id
      position := position.toNat
      dataSize := dataSize.toNat
      storageIndex := storageIndex.toNat
      uniqueId := uniqueId.toNat } := by
  unfold convertParcel
  simp only [Option.bind_eq_bind]
  rw [ptr_bind_as rfl, ptr_bind_as rfl, ptr_bind_as rfl, ptr_bind_as rfl, ptr_bind_as rfl]

theorem decoded_eq (fits : p.Representable) :
    convertParcel (objectWithZoneParcel p) fresh = some { p with type := fresh.type } := by
  rw [objectWithZoneParcel, convertParcel_array, toNat_ofNat fits.position, toNat_ofNat fits.dataSize,
    toNat_ofNat fits.storageIndex, toNat_ofNat fits.uniqueId]

/-! ## What is lost -/

/-- `q` is as good as `p` to whoever looks up what has been stored under `p`: it is
`operator==`-equal, has the same hash, and finds the entries of both maps. -/
structure FindsEntries (charStruct : String → UInt64) (size : UInt64 → UInt64) (p q : Parcel) :
    Prop where
  key : q.key = p.key
  hash : q.hash charStruct size = p.hash charStruct size
  data : ∀ (sh : Shared) (d : Bytes), (sh.putData p d).getData q = d
  status : ∀ (sh : Shared) (status : TaskStatus) (timestamp : ℕ),
    (sh.updateParcelStatus p status timestamp).parselState q.key = some ⟨status, timestamp⟩

/-- `p` survives its codec, when it is decoded into `fresh`. -/
structure LosesNothing (charStruct : String → UInt64) (size : UInt64 → UInt64) (fresh p : Parcel) :
    Prop where
  /-- The two encoders produce the same array. -/
  same : unpack (packParcel [] p) = some (objectWithZoneParcel p)
  /-- Decoding what was packed gives all fields back. -/
  packed : (unpack (packParcel [] p)).bind (convertParcel · fresh) = some p
  /-- Decoding what was built in a zone gives all fields back. -/
  zone : convertParcel (objectWithZoneParcel p) fresh = some p
  /-- The decoded parcel finds what is stored under `p`. -/
  finds : ∀ q, convertParcel (objectWithZoneParcel p) fresh = some q →
    FindsEntries charStruct size p q

variable {charStruct : String → UInt64} {size : UInt64 → UInt64}

theorem findsEntries_of_key (id : q.id = p.id) (uniqueId : q.uniqueId = p.uniqueId) :
    FindsEntries charStruct size p q where
  key := by rw [Parcel.key, Parcel.key, id, uniqueId]
  hash := by rw [Parcel.hash, Parcel.hash, id, uniqueId]
  data sh d := by simp [Shared.getData, Parcel.key, id, uniqueId]
  status sh status timestamp := by simp [Parcel.key, id, uniqueId]

/-- Whatever its type, a decoded parcel finds what is stored under the parcel that was encoded. -/
theorem decoded_finds (fits : p.Representable)
    (decoded : convertParcel (objectWithZoneParcel p) fresh = some q) :
    FindsEntries charStruct size p q := by
  rw [decoded_eq fits] at decoded
  obtain rfl := Option.some.inj decoded
  exact findsEntries_of_key rfl rfl

/-- The codec gives back the type of a parcel just when it is the type of the parcel that is decoded
into, and everything else always. -/
theorem losesNothing_iff (fits : p.Representable) :
    LosesNothing charStruct size fresh p ↔ p.type = fresh.type := by
  constructor
  · intro lossless
    have given := lossless.zone
    rw [decoded_eq fits] at given
    have same := congrArg Parcel.type (Option.some.inj given)
    exact same.symm
  · intro same
    have given : convertParcel (objectWithZoneParcel p) fresh = some p := by
      rw [decoded_eq fits, ← same]
    exact {
      same := unpack_packParcel p
      packed := by rw [unpack_packParcel, Option.bind_some, given]
      zone := given
      finds := fun q decoded => decoded_finds fits decoded }

/-- A request of the applications, which publish and subscribe with parcels that differ in nothing
but the type. -/
def requested (type : OperationType) : Parcel := ⟨"/pfs/out", 4096, 1024, 1, 7, type⟩

/-- A parcel before it is decoded into. -/
def blank (type : OperationType) : Parcel := ⟨"", 0, 0, 0, 0, type⟩

theorem representable_requested (type : OperationType) : (requested type).Representable where
  position := by norm_num [requested]
  dataSize := by norm_num [requested]
  storageIndex := by norm_num [requested]
  uniqueId := by norm_num [requested]

/-- The request to publish survives where `PUBLISH` is what a parcel is made with. -/
theorem losesNothing_publish :
    LosesNothing (fun _ => 0) (fun n => n) (blank .publish) (requested .publish) :=
  (losesNothing_iff (representable_requested .publish)).mpr rfl

/-- Whatever type a parcel is made with, one of the two requests does not survive: it is decoded as
the other one. -/
theorem type_lost :
    (convertParcel (objectWithZoneParcel (requested .subscribe)) (blank .publish) =
        some (requested .publish) ∧
      ¬LosesNothing (fun _ => 0) (fun n => n) (blank .publish) (requested .subscribe)) ∧
    (convertParcel (objectWithZoneParcel (requested .publish)) (blank .subscribe) =
        some (requested .subscribe) ∧
      ¬LosesNothing (fun _ => 0) (fun n => n) (blank .subscribe) (requested .publish)) := by
  have subscribed : convertParcel (objectWithZoneParcel (requested .subscribe)) (blank .publish) =
      some (requested .publish) := decoded_eq (representable_requested .subscribe)
  have published : convertParcel (objectWithZoneParcel (requested .publish)) (blank .subscribe) =
      some (requested .subscribe) := decoded_eq (representable_requested .publish)
  refine ⟨⟨subscribed, fun lossless => ?_⟩, ⟨published, fun lossless => ?_⟩⟩
  · have given := lossless.zone
    rw [subscribed] at given
    exact absurd given (by decide)
  · have given := lossless.zone
    rw [published] at given
    exact absurd given (by decide)

end Rhea
