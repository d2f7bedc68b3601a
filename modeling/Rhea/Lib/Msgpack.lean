import Mathlib

/-!
# Packed values

A packed stream is a flat list of tokens: scalars, and array headers that announce how many of the
values behind them belong to the array.  An `Object` is a value as a tree.  `unpack` reads the one value
of a stream; it reads back every object that has been written token by token (`unpack_tokens`).

An `Adaptor` packs a scalar type and converts it back; that this loses nothing is part of it.
-/

namespace Msgpack

/-- A value that is not an array. -/
inductive Scalar
  | int (z : ℤ)
  | str (s : String)
  deriving DecidableEq, Repr

/-- An entry of a packed stream. -/
inductive Token
  | scalar (v : Scalar)
  | array (size : ℕ)
  deriving DecidableEq, Repr

/-- A value as a tree. -/
inductive Object
  | scalar (v : Scalar)
  | array (elems : List Object)

abbrev Stream := List Token

mutual

/-- The tokens of a value. -/
def Object.tokens : Object → Stream
  | .scalar v => [.scalar v]
  | .array elems => .array elems.length :: tokensAll elems

/-- The tokens of values, one after the other. -/
def tokensAll : List Object → Stream
  | [] => []
  | o :: os => o.tokens ++ tokensAll os

end

/-- The values of a stream.  It is read from its end, so that an array header finds the values that it
announces; `none` when there are too few. -/
def values : Stream → Option (List Object)
  | [] => some []
  | .scalar v :: ts => (values ts).map (.scalar v :: ·)
  | .array size :: ts => (values ts).bind fun os =>
    if size ≤ os.length then some (.array (os.take size) :: os.drop size) else none

/-- The value of a stream that has exactly one. -/
def unpack (stream : Stream) : Option Object :=
  match values stream with
  | some [o] => some o
  | _ => none

mutual

theorem values_tokens (o : Object) {ts : Stream} {os : List Object} (h : values ts = some os) :
    values (o.tokens ++ ts) = some (o :: os) := by
  cases o with
  | scalar v => simp [Object.tokens, values, h]
  | array elems =>
    have := values_tokensAll elems h
    simp [Object.tokens, values, this]

theorem values_tokensAll (l : List Object) {ts : Stream} {os : List Object}
    (h : values ts = some os) : values (tokensAll l ++ ts) = some (l ++ os) := by
  cases l with
  | nil => simpa [tokensAll] using h
  | cons o l =>
    have := values_tokens o (values_tokensAll l h)
    simpa [tokensAll] using this

end

/-- What has been written is read back. -/
theorem unpack_tokens (o : Object) : unpack o.tokens = some o := by
  have h : values (o.tokens ++ []) = some [o] := values_tokens o rfl
  rw [List.append_nil] at h
  simp [unpack, h]

/-! ## Scalars -/

/-- How the values of a scalar type are packed and converted back. -/
structure Adaptor (α : Type*) where
  pack : α → Scalar
  convert : Scalar → Option α
  convert_pack : ∀ a, convert (pack a) = some a

namespace Adaptor

/-- `std::string` and what is converted like one -/
def string : Adaptor String where
  pack := .str
  convert
    | .str s => some s
    | .int _ => none
  convert_pack _ := rfl

/-- The unsigned integers of `w` bits; a number that does not fit is not converted. -/
def unsigned (w : ℕ) : Adaptor (BitVec w) where
  pack n := .int n.toNat
  convert
    | .int z => if 0 ≤ z ∧ z < 2 ^ w then some (.ofNat w z.toNat) else none
    | .str _ => none
  convert_pack n := by
    have hn : (n.toNat : ℤ) < 2 ^ w := by exact_mod_cast n.isLt
    simp [hn]

end Adaptor

/-- `as<T>()` -/
def Object.as {α : Type*} (A : Adaptor α) : Object → Option α
  | .scalar v => A.convert v
  | .array _ => none

/-- `via.array.ptr[k]` -/
def Object.ptr : Object → ℕ → Option Object
  | .array elems, k => elems[k]?
  | .scalar _, _ => none

/-- The elements of an array. -/
def Object.elems : Object → Option (List Object)
  | .array elems => some elems
  | .scalar _ => none

/-- `pack_array(size)` -/
def packArray (stream : Stream) (size : ℕ) : Stream := stream ++ [.array size]

/-- `pack(a)` of a scalar -/
def pack {α : Type*} (A : Adaptor α) (stream : Stream) (a : α) : Stream :=
  stream ++ [.scalar (A.pack a)]

/-- `object(a, zone)` of a scalar -/
def object {α : Type*} (A : Adaptor α) (a : α) : Object := .scalar (A.pack a)

@[simp] theorem as_object {α : Type*} (A : Adaptor α) (a : α) : (object A a).as A = some a :=
  A.convert_pack a

/-- Reading an entry that has been written gives the scalar. -/
theorem ptr_bind_as {α β : Type*} {A : Adaptor α} {a : α} {os : List Object} {k : ℕ}
    (entry : os[k]? = some (object A a)) (f : α → Option β) :
    ((Object.array os).ptr k).bind (fun o => (o.as A).bind f) = f a := by
  rw [Object.ptr, entry, Option.bind_some, as_object, Option.bind_some]

@[simp] theorem tokens_object {α : Type*} (A : Adaptor α) (a : α) :
    (object A a).tokens = [.scalar (A.pack a)] := rfl

end Msgpack
