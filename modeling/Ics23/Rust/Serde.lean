import Ics23.Lib.Record
import Ics23.Rust.Messages

/-!
# The serde implementations

The functions of `cosmos.ics23.v1.serde.rs`.  They are generic in the format, and so are these: a
`Format` is what they use of a serializer, of a deserializer and of the `pbjson` crate, and
`Format.Lawful` says that what was written is read back.  A struct is read as the list of its
entries; an error in the middle of that list is an error of the whole.
-/

namespace Ics23.Rust.Serde

open Outcome

/-- The errors that the implementations make, and those of the format. -/
inductive Error where
  | custom (msg : String)
  | duplicateField (field : String)
  | unknownField (field : String) (expected : List String)
  | unknownVariant (variant : String) (expected : List String)
  | invalidValue (value : ℤ) (expected : List String)
  | format (msg : String)
  deriving DecidableEq, Repr

abbrev Result := Outcome Panic Error

/-- A format with serialized values in `V`. -/
structure Format (V : Type) where
  /-- `serialize_struct`, `serialize_field` for every field, and `end`. -/
  struct : String → List (String × V) → V
  str : String → V
  int : Int32 → V
  bool : Bool → V
  seq : List V → V
  /-- The entries that `deserialize_struct` hands to the visitor. -/
  entries : String → List String → V → Result (List (String × V))
  option : V → Result (Option V)
  elements : V → Result (List V)
  boolean : V → Result Bool
  /-- The integer or the string that `deserialize_any` hands to the visitor. -/
  variant : V → Result (ℤ ⊕ String)
  /-- `pbjson::private::base64::encode`. -/
  base64 : Bytes → String
  /-- `NumberDeserialize` and `BytesDeserialize` of `pbjson`. -/
  number : V → Result Int32
  bytes : V → Result Bytes

/-- What was written is read back, the entries of a struct in any order. -/
structure Format.Lawful {V : Type} (F : Format V) : Prop where
  entries_struct : ∀ name fields (es : List (String × V)), (es.map Prod.fst).Nodup →
    ∃ es', F.entries name fields (F.struct name es) = .ok es' ∧ es.Perm es'
  option_struct : ∀ name es, F.option (F.struct name es) = .ok (some (F.struct name es))
  elements_seq : ∀ vs, F.elements (F.seq vs) = .ok vs
  boolean_bool : ∀ b, F.boolean (F.bool b) = .ok b
  variant_str : ∀ s, F.variant (F.str s) = .ok (.inr s)
  number_int : ∀ x, F.number (F.int x) = .ok x
  bytes_base64 : ∀ b, F.bytes (F.str (F.base64 b)) = .ok b

variable {V : Type} (F : Format V)

/-! ## Enumerations -/

/-- The conversions of an enumeration, and the names of its variants. -/
structure Enumeration (α : Type) where
  tryFrom : Int32 → Option α
  asI32 : α → Int32
  variant : α → String
  ofVariant : String → Option α
  fields : List String

def Enumeration.serialize {α : Type} (E : Enumeration α) (op : α) : V := F.str (E.variant op)

/-- The visitor takes integers, signed or not, and strings. -/
def Enumeration.deserialize {α : Type} (E : Enumeration α) (v : V) : Result α := do
  match ← F.variant v with
  | .inl n =>
    match (if InI32 n then E.tryFrom (Int32.ofInt n) else none) with
    | some op => return op
    | none => .err (.invalidValue n E.fields)
  | .inr value =>
    match E.ofVariant value with
    | some op => return op
    | none => .err (.unknownVariant value E.fields)

def HashOp.asI32 : HashOp → Int32
  | .noHash => 0
  | .sha256 => 1
  | .sha512 => 2
  | .keccak256 => 3
  | .ripemd160 => 4
  | .bitcoin => 5
  | .sha512256 => 6
  | .blake2b512 => 7
  | .blake2s256 => 8
  | .blake3 => 9

def HashOp.variant : HashOp → String
  | .noHash => "NO_HASH"
  | .sha256 => "SHA256"
  | .sha512 => "SHA512"
  | .keccak256 => "KECCAK256"
  | .ripemd160 => "RIPEMD160"
  | .bitcoin => "BITCOIN"
  | .sha512256 => "SHA512_256"
  | .blake2b512 => "BLAKE2B_512"
  | .blake2s256 => "BLAKE2S_256"
  | .blake3 => "BLAKE3"

def HashOp.ofVariant (value : String) : Option HashOp :=
  match value with
  | "NO_HASH" => some .noHash
  | "SHA256" => some .sha256
  | "SHA512" => some .sha512
  | "KECCAK256" => some .keccak256
  | "RIPEMD160" => some .ripemd160
  | "BITCOIN" => some .bitcoin
  | "SHA512_256" => some .sha512256
  | "BLAKE2B_512" => some .blake2b512
  | "BLAKE2S_256" => some .blake2s256
  | "BLAKE3" => some .blake3
  | _ => none

def HashOp.enumeration : Enumeration HashOp where
  tryFrom := HashOp.ofInt32
  asI32 := HashOp.asI32
  variant := HashOp.variant
  ofVariant := HashOp.ofVariant
  fields := ["NO_HASH", "SHA256", "SHA512", "KECCAK256", "RIPEMD160", "BITCOIN", "SHA512_256",
    "BLAKE2B_512", "BLAKE2S_256", "BLAKE3"]

def LengthOp.asI32 : LengthOp → Int32
  | .noPrefix => 0
  | .varProto => 1
  | .varRlp => 2
  | .fixed32Big => 3
  | .fixed32Little => 4
  | .fixed64Big => 5
  | .fixed64Little => 6
  | .require32Bytes => 7
  | .require64Bytes => 8

def LengthOp.variant : LengthOp → String
  | .noPrefix => "NO_PREFIX"
  | .varProto => "VAR_PROTO"
  | .varRlp => "VAR_RLP"
  | .fixed32Big => "FIXED32_BIG"
  | .fixed32Little => "FIXED32_LITTLE"
  | .fixed64Big => "FIXED64_BIG"
  | .fixed64Little => "FIXED64_LITTLE"
  | .require32Bytes => "REQUIRE_32_BYTES"
  | .require64Bytes => "REQUIRE_64_BYTES"

def LengthOp.ofVariant (value : String) : Option LengthOp :=
  match value with
  | "NO_PREFIX" => some .noPrefix
  | "VAR_PROTO" => some .varProto
  | "VAR_RLP" => some .varRlp
  | "FIXED32_BIG" => some .fixed32Big
  | "FIXED32_LITTLE" => some .fixed32Little
  | "FIXED64_BIG" => some .fixed64Big
  | "FIXED64_LITTLE" => some .fixed64Little
  | "REQUIRE_32_BYTES" => some .require32Bytes
  | "REQUIRE_64_BYTES" => some .require64Bytes
  | _ => none

def LengthOp.enumeration : Enumeration LengthOp where
  tryFrom := LengthOp.ofInt32
  asI32 := LengthOp.asI32
  variant := LengthOp.variant
  ofVariant := LengthOp.ofVariant
  fields := ["NO_PREFIX", "VAR_PROTO", "VAR_RLP", "FIXED32_BIG", "FIXED32_LITTLE", "FIXED64_BIG",
    "FIXED64_LITTLE", "REQUIRE_32_BYTES", "REQUIRE_64_BYTES"]

/-! ## Fields -/

/-- The field of an enumeration, left out where it is the default. -/
def enumField {α : Type} (E : Enumeration α) (name : String) (x : Int32) :
    Result (List (String × V)) :=
  if x = 0 then .ok []
  else
    match E.tryFrom x with
    | some op => .ok [(name, E.serialize F op)]
    | none => .err (.custom ("Invalid variant " ++ toString x))

def numberField (name : String) (x : Int32) : List (String × V) :=
  if x ≠ 0 then [(name, F.int x)] else []

def bytesField (name : String) (b : Bytes) : List (String × V) :=
  if b ≠ [] then [(name, F.str (F.base64 b))] else []

def boolField (name : String) (b : Bool) : List (String × V) :=
  if b then [(name, F.bool b)] else []

def numbersField (name : String) (xs : List Int32) : List (String × V) :=
  if xs ≠ [] then [(name, F.seq (xs.map F.int))] else []

/-- The field of a member of a oneof. -/
def memberField {α : Type} (serialize : α → Result V) (name : String) (x : α) :
    Result (List (String × V)) := do
  return [(name, ← serialize x)]

def optionField {α : Type} (serialize : α → Result V) (name : String) (x : Option α) :
    Result (List (String × V)) :=
  match x with
  | some x => memberField serialize name x
  | none => .ok []

def vecField {α : Type} (serialize : α → Result V) (name : String) (xs : List α) :
    Result (List (String × V)) :=
  if xs ≠ [] then do return [(name, F.seq (← xs.mapM serialize))] else .ok []

/-- The value of an enumeration field, as the number of the variant. -/
def readEnum {α : Type} (E : Enumeration α) (v : V) : Result (Option Int32) := do
  return some (E.asI32 (← E.deserialize F v))

def readNumber (v : V) : Result (Option Int32) := do return some (← F.number v)

def readBytes (v : V) : Result (Option Bytes) := do return some (← F.bytes v)

def readBool (v : V) : Result (Option Bool) := do return some (← F.boolean v)

def readVec {α : Type} (deserialize : V → Result α) (v : V) : Result (Option (List α)) := do
  return some (← (← F.elements v).mapM deserialize)

def readOption {α : Type} (deserialize : V → Result α) (v : V) : Result (Option α) := do
  match ← F.option v with
  | some v => return some (← deserialize v)
  | none => return none

def readMember {α β : Type} (deserialize : V → Result α) (member : α → β) (v : V) :
    Result (Option β) := do
  return (← readOption F deserialize v).map member

def unwrapOrDefault (α : Type) [Inhabited α] (x : Option α) : α := x.getD default

end Ics23.Rust.Serde
