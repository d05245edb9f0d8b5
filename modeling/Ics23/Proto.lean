import Ics23.Lib.Leb128

/-!
# Operation codes and specs

The enumerations of `proofs.proto`, and the messages of it that say how a tree is hashed.  They are
the same in both implementations; enumeration fields hold any 32-bit number.
-/

namespace Ics23

/-! ### Operation codes -/

inductive HashOp where
  | noHash
  | sha256
  | sha512
  | keccak256
  | ripemd160
  | bitcoin
  | sha512256
  | blake2b512
  | blake2s256
  | blake3
  deriving DecidableEq, Repr

/-- The operation with a given number, if there is one. -/
def HashOp.ofInt32 (x : Int32) : Option HashOp :=
  match x.toInt with
  | 0 => some .noHash
  | 1 => some .sha256
  | 2 => some .sha512
  | 3 => some .keccak256
  | 4 => some .ripemd160
  | 5 => some .bitcoin
  | 6 => some .sha512256
  | 7 => some .blake2b512
  | 8 => some .blake2s256
  | 9 => some .blake3
  | _ => none

inductive LengthOp where
  | noPrefix
  | varProto
  | varRlp
  | fixed32Big
  | fixed32Little
  | fixed64Big
  | fixed64Little
  | require32Bytes
  | require64Bytes
  deriving DecidableEq, Repr

/-- The operation with a given number, if there is one. -/
def LengthOp.ofInt32 (x : Int32) : Option LengthOp :=
  match x.toInt with
  | 0 => some .noPrefix
  | 1 => some .varProto
  | 2 => some .varRlp
  | 3 => some .fixed32Big
  | 4 => some .fixed32Little
  | 5 => some .fixed64Big
  | 6 => some .fixed64Little
  | 7 => some .require32Bytes
  | 8 => some .require64Bytes
  | _ => none

/-! ### Specs -/

structure LeafOp where
  hash : Int32
  prehashKey : Int32
  prehashValue : Int32
  length : Int32
  prefix_ : Bytes
  deriving DecidableEq, Repr

structure InnerSpec where
  childOrder : List Int32
  childSize : Int32
  minPrefixLength : Int32
  maxPrefixLength : Int32
  emptyChild : Bytes
  hash : Int32
  deriving DecidableEq, Repr

structure ProofSpec where
  leafSpec : Option LeafOp
  innerSpec : Option InnerSpec
  maxDepth : Int32
  minDepth : Int32
  prehashKeyBeforeComparison : Bool
  deriving DecidableEq, Repr

end Ics23
