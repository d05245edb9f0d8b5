import Ics23.Rust.Serde

/-!
# Messages in a format

`Serialize` and `Deserialize` of every message in `cosmos.ics23.v1.serde.rs`.  A field is written
under its name in `camelCase`, and is also read under its name in the `.proto` file.  The members of
a oneof share one slot.
-/

namespace Ics23.Rust.Serde

open Outcome

variable {V : Type} (F : Format V)

/-! ## Operations and specs -/

inductive LeafOp.GeneratedField where
  | hash
  | prehashKey
  | prehashValue
  | length
  | prefix_
  deriving DecidableEq

def LeafOp.FIELDS : List String :=
  ["hash", "prehash_key", "prehashKey", "prehash_value", "prehashValue", "length", "prefix"]

abbrev LeafOp.visitor : Visitor Panic Error V where
  Field := LeafOp.GeneratedField
  Slot := LeafOp.GeneratedField
  Value f :=
    match f with
    | .prefix_ => Bytes
    | _ => Int32
  slot f := f
  recognize value :=
    match value with
    | "hash" => .ok .hash
    | "prehashKey" | "prehash_key" => .ok .prehashKey
    | "prehashValue" | "prehash_value" => .ok .prehashValue
    | "length" => .ok .length
    | "prefix" => .ok .prefix_
    | _ => .err (.unknownField value LeafOp.FIELDS)
  duplicate f :=
    match f with
    | .hash => .duplicateField "hash"
    | .prehashKey => .duplicateField "prehashKey"
    | .prehashValue => .duplicateField "prehashValue"
    | .length => .duplicateField "length"
    | .prefix_ => .duplicateField "prefix"
  read f v :=
    match f with
    | .hash => readEnum F HashOp.enumeration v
    | .prehashKey => readEnum F HashOp.enumeration v
    | .prehashValue => readEnum F HashOp.enumeration v
    | .length => readEnum F LengthOp.enumeration v
    | .prefix_ => readBytes F v

def LeafOp.serialize (m : LeafOp) : Result V := do
  let hash ← enumField F HashOp.enumeration "hash" m.hash
  let prehashKey ← enumField F HashOp.enumeration "prehashKey" m.prehashKey
  let prehashValue ← enumField F HashOp.enumeration "prehashValue" m.prehashValue
  let length ← enumField F LengthOp.enumeration "length" m.length
  return F.struct "cosmos.ics23.v1.LeafOp"
    [hash, prehashKey, prehashValue, length, bytesField F "prefix" m.prefix_].flatten

def LeafOp.deserialize (v : V) : Result LeafOp := do
  let es ← F.entries "cosmos.ics23.v1.LeafOp" LeafOp.FIELDS v
  let s ← (LeafOp.visitor F).visit (LeafOp.visitor F).empty es
  return {
    hash := unwrapOrDefault Int32 (s .hash)
    prehashKey := unwrapOrDefault Int32 (s .prehashKey)
    prehashValue := unwrapOrDefault Int32 (s .prehashValue)
    length := unwrapOrDefault Int32 (s .length)
    prefix_ := unwrapOrDefault Bytes (s .prefix_) }

inductive InnerOp.GeneratedField where
  | hash
  | prefix_
  | suffix
  deriving DecidableEq

def InnerOp.FIELDS : List String := ["hash", "prefix", "suffix"]

abbrev InnerOp.visitor : Visitor Panic Error V where
  Field := InnerOp.GeneratedField
  Slot := InnerOp.GeneratedField
  Value f :=
    match f with
    | .hash => Int32
    | _ => Bytes
  slot f := f
  recognize value :=
    match value with
    | "hash" => .ok .hash
    | "prefix" => .ok .prefix_
    | "suffix" => .ok .suffix
    | _ => .err (.unknownField value InnerOp.FIELDS)
  duplicate f :=
    match f with
    | .hash => .duplicateField "hash"
    | .prefix_ => .duplicateField "prefix"
    | .suffix => .duplicateField "suffix"
  read f v :=
    match f with
    | .hash => readEnum F HashOp.enumeration v
    | .prefix_ => readBytes F v
    | .suffix => readBytes F v

def InnerOp.serialize (m : InnerOp) : Result V := do
  let hash ← enumField F HashOp.enumeration "hash" m.hash
  return F.struct "cosmos.ics23.v1.InnerOp"
    [hash, bytesField F "prefix" m.prefix_, bytesField F "suffix" m.suffix].flatten

def InnerOp.deserialize (v : V) : Result InnerOp := do
  let es ← F.entries "cosmos.ics23.v1.InnerOp" InnerOp.FIELDS v
  let s ← (InnerOp.visitor F).visit (InnerOp.visitor F).empty es
  return {
    hash := unwrapOrDefault Int32 (s .hash)
    prefix_ := unwrapOrDefault Bytes (s .prefix_)
    suffix := unwrapOrDefault Bytes (s .suffix) }

inductive InnerSpec.GeneratedField where
  | childOrder
  | childSize
  | minPrefixLength
  | maxPrefixLength
  | emptyChild
  | hash
  deriving DecidableEq

def InnerSpec.FIELDS : List String :=
  ["child_order", "childOrder", "child_size", "childSize", "min_prefix_length", "minPrefixLength",
    "max_prefix_length", "maxPrefixLength", "empty_child", "emptyChild", "hash"]

abbrev InnerSpec.visitor : Visitor Panic Error V where
  Field := InnerSpec.GeneratedField
  Slot := InnerSpec.GeneratedField
  Value f :=
    match f with
    | .childOrder => List Int32
    | .emptyChild => Bytes
    | _ => Int32
  slot f := f
  recognize value :=
    match value with
    | "childOrder" | "child_order" => .ok .childOrder
    | "childSize" | "child_size" => .ok .childSize
    | "minPrefixLength" | "min_prefix_length" => .ok .minPrefixLength
    | "maxPrefixLength" | "max_prefix_length" => .ok .maxPrefixLength
    | "emptyChild" | "empty_child" => .ok .emptyChild
    | "hash" => .ok .hash
    | _ => .err (.unknownField value InnerSpec.FIELDS)
  duplicate f :=
    match f with
    | .childOrder => .duplicateField "childOrder"
    | .childSize => .duplicateField "childSize"
    | .minPrefixLength => .duplicateField "minPrefixLength"
    | .maxPrefixLength => .duplicateField "maxPrefixLength"
    | .emptyChild => .duplicateField "emptyChild"
    | .hash => .duplicateField "hash"
  read f v :=
    match f with
    | .childOrder => readVec F F.number v
    | .childSize => readNumber F v
    | .minPrefixLength => readNumber F v
    | .maxPrefixLength => readNumber F v
    | .emptyChild => readBytes F v
    | .hash => readEnum F HashOp.enumeration v

def InnerSpec.serialize (m : InnerSpec) : Result V := do
  let hash ← enumField F HashOp.enumeration "hash" m.hash
  return F.struct "cosmos.ics23.v1.InnerSpec"
    [numbersField F "childOrder" m.childOrder, numberField F "childSize" m.childSize,
      numberField F "minPrefixLength" m.minPrefixLength,
      numberField F "maxPrefixLength" m.maxPrefixLength, bytesField F "emptyChild" m.emptyChild,
      hash].flatten

def InnerSpec.deserialize (v : V) : Result InnerSpec := do
  let es ← F.entries "cosmos.ics23.v1.InnerSpec" InnerSpec.FIELDS v
  let s ← (InnerSpec.visitor F).visit (InnerSpec.visitor F).empty es
  return {
    childOrder := unwrapOrDefault (List Int32) (s .childOrder)
    childSize := unwrapOrDefault Int32 (s .childSize)
    minPrefixLength := unwrapOrDefault Int32 (s .minPrefixLength)
    maxPrefixLength := unwrapOrDefault Int32 (s .maxPrefixLength)
    emptyChild := unwrapOrDefault Bytes (s .emptyChild)
    hash := unwrapOrDefault Int32 (s .hash) }

inductive ProofSpec.GeneratedField where
  | leafSpec
  | innerSpec
  | maxDepth
  | minDepth
  | prehashKeyBeforeComparison
  deriving DecidableEq

def ProofSpec.FIELDS : List String :=
  ["leaf_spec", "leafSpec", "inner_spec", "innerSpec", "max_depth", "maxDepth", "min_depth",
    "minDepth", "prehash_key_before_comparison", "prehashKeyBeforeComparison"]

abbrev ProofSpec.visitor : Visitor Panic Error V where
  Field := ProofSpec.GeneratedField
  Slot := ProofSpec.GeneratedField
  Value f :=
    match f with
    | .leafSpec => LeafOp
    | .innerSpec => InnerSpec
    | .maxDepth => Int32
    | .minDepth => Int32
    | .prehashKeyBeforeComparison => Bool
  slot f := f
  recognize value :=
    match value with
    | "leafSpec" | "leaf_spec" => .ok .leafSpec
    | "innerSpec" | "inner_spec" => .ok .innerSpec
    | "maxDepth" | "max_depth" => .ok .maxDepth
    | "minDepth" | "min_depth" => .ok .minDepth
    | "prehashKeyBeforeComparison" | "prehash_key_before_comparison" =>
      .ok .prehashKeyBeforeComparison
    | _ => .err (.unknownField value ProofSpec.FIELDS)
  duplicate f :=
    match f with
    | .leafSpec => .duplicateField "leafSpec"
    | .innerSpec => .duplicateField "innerSpec"
    | .maxDepth => .duplicateField "maxDepth"
    | .minDepth => .duplicateField "minDepth"
    | .prehashKeyBeforeComparison => .duplicateField "prehashKeyBeforeComparison"
  read f v :=
    match f with
    | .leafSpec => readOption F (LeafOp.deserialize F) v
    | .innerSpec => readOption F (InnerSpec.deserialize F) v
    | .maxDepth => readNumber F v
    | .minDepth => readNumber F v
    | .prehashKeyBeforeComparison => readBool F v

def ProofSpec.serialize (m : ProofSpec) : Result V := do
  let leafSpec ← optionField (LeafOp.serialize F) "leafSpec" m.leafSpec
  let innerSpec ← optionField (InnerSpec.serialize F) "innerSpec" m.innerSpec
  return F.struct "cosmos.ics23.v1.ProofSpec"
    [leafSpec, innerSpec, numberField F "maxDepth" m.maxDepth, numberField F "minDepth" m.minDepth,
      boolField F "prehashKeyBeforeComparison" m.prehashKeyBeforeComparison].flatten

def ProofSpec.deserialize (v : V) : Result ProofSpec := do
  let es ← F.entries "cosmos.ics23.v1.ProofSpec" ProofSpec.FIELDS v
  let s ← (ProofSpec.visitor F).visit (ProofSpec.visitor F).empty es
  return {
    leafSpec := s .leafSpec
    innerSpec := s .innerSpec
    maxDepth := unwrapOrDefault Int32 (s .maxDepth)
    minDepth := unwrapOrDefault Int32 (s .minDepth)
    prehashKeyBeforeComparison := unwrapOrDefault Bool (s .prehashKeyBeforeComparison) }

/-! ## Existence proofs

The visitors of `ExistenceProof` and `CompressedExistenceProof` differ in what a path is made of. -/

inductive ExistField where
  | key
  | value
  | leaf
  | path
  deriving DecidableEq

def existFields : List String := ["key", "value", "leaf", "path"]

abbrev existVisitor {α : Type} (readStep : V → Result α) : Visitor Panic Error V where
  Field := ExistField
  Slot := ExistField
  Value f :=
    match f with
    | .key => Bytes
    | .value => Bytes
    | .leaf => LeafOp
    | .path => List α
  slot f := f
  recognize value :=
    match value with
    | "key" => .ok .key
    | "value" => .ok .value
    | "leaf" => .ok .leaf
    | "path" => .ok .path
    | _ => .err (.unknownField value existFields)
  duplicate f :=
    match f with
    | .key => .duplicateField "key"
    | .value => .duplicateField "value"
    | .leaf => .duplicateField "leaf"
    | .path => .duplicateField "path"
  read f v :=
    match f with
    | .key => readBytes F v
    | .value => readBytes F v
    | .leaf => readOption F (LeafOp.deserialize F) v
    | .path => readVec F readStep v

abbrev ExistenceProof.visitor : Visitor Panic Error V := existVisitor F (InnerOp.deserialize F)

def ExistenceProof.serialize (m : ExistenceProof) : Result V := do
  let leaf ← optionField (LeafOp.serialize F) "leaf" m.leaf
  let path ← vecField F (InnerOp.serialize F) "path" m.path
  return F.struct "cosmos.ics23.v1.ExistenceProof"
    [bytesField F "key" m.key, bytesField F "value" m.value, leaf, path].flatten

def ExistenceProof.deserialize (v : V) : Result ExistenceProof := do
  let es ← F.entries "cosmos.ics23.v1.ExistenceProof" existFields v
  let s ← (ExistenceProof.visitor F).visit (ExistenceProof.visitor F).empty es
  return {
    key := unwrapOrDefault Bytes (s .key)
    value := unwrapOrDefault Bytes (s .value)
    leaf := s .leaf
    path := unwrapOrDefault (List InnerOp) (s .path) }

abbrev CompressedExistenceProof.visitor : Visitor Panic Error V := existVisitor F F.number

def CompressedExistenceProof.serialize (m : CompressedExistenceProof) : Result V := do
  let leaf ← optionField (LeafOp.serialize F) "leaf" m.leaf
  return F.struct "cosmos.ics23.v1.CompressedExistenceProof"
    [bytesField F "key" m.key, bytesField F "value" m.value, leaf,
      numbersField F "path" m.path].flatten

def CompressedExistenceProof.deserialize (v : V) : Result CompressedExistenceProof := do
  let es ← F.entries "cosmos.ics23.v1.CompressedExistenceProof" existFields v
  let s ← (CompressedExistenceProof.visitor F).visit (CompressedExistenceProof.visitor F).empty es
  return {
    key := unwrapOrDefault Bytes (s .key)
    value := unwrapOrDefault Bytes (s .value)
    leaf := s .leaf
    path := unwrapOrDefault (List Int32) (s .path) }

/-! ## Non-existence proofs

The visitors of `NonExistenceProof` and `CompressedNonExistenceProof` differ in the sides. -/

inductive SidesField where
  | key
  | left
  | right
  deriving DecidableEq

def sidesFields : List String := ["key", "left", "right"]

abbrev sidesVisitor {α : Type} (readSide : V → Result α) : Visitor Panic Error V where
  Field := SidesField
  Slot := SidesField
  Value f :=
    match f with
    | .key => Bytes
    | _ => α
  slot f := f
  recognize value :=
    match value with
    | "key" => .ok .key
    | "left" => .ok .left
    | "right" => .ok .right
    | _ => .err (.unknownField value sidesFields)
  duplicate f :=
    match f with
    | .key => .duplicateField "key"
    | .left => .duplicateField "left"
    | .right => .duplicateField "right"
  read f v :=
    match f with
    | .key => readBytes F v
    | .left => readOption F readSide v
    | .right => readOption F readSide v

abbrev NonExistenceProof.visitor : Visitor Panic Error V :=
  sidesVisitor F (ExistenceProof.deserialize F)

def NonExistenceProof.serialize (m : NonExistenceProof) : Result V := do
  let left ← optionField (ExistenceProof.serialize F) "left" m.left
  let right ← optionField (ExistenceProof.serialize F) "right" m.right
  return F.struct "cosmos.ics23.v1.NonExistenceProof"
    [bytesField F "key" m.key, left, right].flatten

def NonExistenceProof.deserialize (v : V) : Result NonExistenceProof := do
  let es ← F.entries "cosmos.ics23.v1.NonExistenceProof" sidesFields v
  let s ← (NonExistenceProof.visitor F).visit (NonExistenceProof.visitor F).empty es
  return {
    key := unwrapOrDefault Bytes (s .key)
    left := s .left
    right := s .right }

abbrev CompressedNonExistenceProof.visitor : Visitor Panic Error V :=
  sidesVisitor F (CompressedExistenceProof.deserialize F)

def CompressedNonExistenceProof.serialize (m : CompressedNonExistenceProof) : Result V := do
  let left ← optionField (CompressedExistenceProof.serialize F) "left" m.left
  let right ← optionField (CompressedExistenceProof.serialize F) "right" m.right
  return F.struct "cosmos.ics23.v1.CompressedNonExistenceProof"
    [bytesField F "key" m.key, left, right].flatten

def CompressedNonExistenceProof.deserialize (v : V) : Result CompressedNonExistenceProof := do
  let es ← F.entries "cosmos.ics23.v1.CompressedNonExistenceProof" sidesFields v
  let s ←
    (CompressedNonExistenceProof.visitor F).visit (CompressedNonExistenceProof.visitor F).empty es
  return {
    key := unwrapOrDefault Bytes (s .key)
    left := s .left
    right := s .right }

/-! ## Batches

The visitors of `BatchEntry` and `CompressedBatchEntry` differ in the members. -/

inductive EntryField where
  | exist
  | nonexist
  deriving DecidableEq

def entryFields : List String := ["exist", "nonexist"]

abbrev entryVisitor {α : Type} (readExist readNonexist : V → Result (Option α)) :
    Visitor Panic Error V where
  Field := EntryField
  Slot := Unit
  Value _ := α
  slot _ := ()
  recognize value :=
    match value with
    | "exist" => .ok .exist
    | "nonexist" => .ok .nonexist
    | _ => .err (.unknownField value entryFields)
  duplicate f :=
    match f with
    | .exist => .duplicateField "exist"
    | .nonexist => .duplicateField "nonexist"
  read f v :=
    match f with
    | .exist => readExist v
    | .nonexist => readNonexist v

abbrev BatchEntry.visitor : Visitor Panic Error V :=
  entryVisitor (readMember F (ExistenceProof.deserialize F) BatchEntry.exist)
    (readMember F (NonExistenceProof.deserialize F) BatchEntry.nonexist)

/-- The field of the member that is set. -/
def BatchEntry.serializeProof (m : BatchEntry) : Result (List (String × V)) :=
  match m with
  | .exist ex => memberField (ExistenceProof.serialize F) "exist" ex
  | .nonexist non => memberField (NonExistenceProof.serialize F) "nonexist" non
  | .none => .ok []

def BatchEntry.serialize (m : BatchEntry) : Result V := do
  return F.struct "cosmos.ics23.v1.BatchEntry" (← BatchEntry.serializeProof F m)

def BatchEntry.deserialize (v : V) : Result BatchEntry := do
  let es ← F.entries "cosmos.ics23.v1.BatchEntry" entryFields v
  let s ← (BatchEntry.visitor F).visit (BatchEntry.visitor F).empty es
  return (s ()).getD .none

abbrev CompressedBatchEntry.visitor : Visitor Panic Error V :=
  entryVisitor (readMember F (CompressedExistenceProof.deserialize F) CompressedBatchEntry.exist)
    (readMember F (CompressedNonExistenceProof.deserialize F) CompressedBatchEntry.nonexist)

/-- The field of the member that is set. -/
def CompressedBatchEntry.serializeProof (m : CompressedBatchEntry) : Result (List (String × V)) :=
  match m with
  | .exist ex => memberField (CompressedExistenceProof.serialize F) "exist" ex
  | .nonexist non => memberField (CompressedNonExistenceProof.serialize F) "nonexist" non
  | .none => .ok []

def CompressedBatchEntry.serialize (m : CompressedBatchEntry) : Result V := do
  return F.struct "cosmos.ics23.v1.CompressedBatchEntry" (← CompressedBatchEntry.serializeProof F m)

def CompressedBatchEntry.deserialize (v : V) : Result CompressedBatchEntry := do
  let es ← F.entries "cosmos.ics23.v1.CompressedBatchEntry" entryFields v
  let s ← (CompressedBatchEntry.visitor F).visit (CompressedBatchEntry.visitor F).empty es
  return (s ()).getD .none

inductive BatchProof.GeneratedField where
  | entries
  deriving DecidableEq

def BatchProof.FIELDS : List String := ["entries"]

abbrev BatchProof.visitor : Visitor Panic Error V where
  Field := BatchProof.GeneratedField
  Slot := BatchProof.GeneratedField
  Value _ := List BatchEntry
  slot f := f
  recognize value :=
    match value with
    | "entries" => .ok .entries
    | _ => .err (.unknownField value BatchProof.FIELDS)
  duplicate f :=
    match f with
    | .entries => .duplicateField "entries"
  read f v :=
    match f with
    | .entries => readVec F (BatchEntry.deserialize F) v

def BatchProof.serialize (m : BatchProof) : Result V := do
  let entries ← vecField F (BatchEntry.serialize F) "entries" m.entries
  return F.struct "cosmos.ics23.v1.BatchProof" [entries].flatten

def BatchProof.deserialize (v : V) : Result BatchProof := do
  let es ← F.entries "cosmos.ics23.v1.BatchProof" BatchProof.FIELDS v
  let s ← (BatchProof.visitor F).visit (BatchProof.visitor F).empty es
  return { entries := unwrapOrDefault (List BatchEntry) (s .entries) }

inductive CompressedBatchProof.GeneratedField where
  | entries
  | lookupInners
  deriving DecidableEq

def CompressedBatchProof.FIELDS : List String := ["entries", "lookup_inners", "lookupInners"]

abbrev CompressedBatchProof.visitor : Visitor Panic Error V where
  Field := CompressedBatchProof.GeneratedField
  Slot := CompressedBatchProof.GeneratedField
  Value f :=
    match f with
    | .entries => List CompressedBatchEntry
    | .lookupInners => List InnerOp
  slot f := f
  recognize value :=
    match value with
    | "entries" => .ok .entries
    | "lookupInners" | "lookup_inners" => .ok .lookupInners
    | _ => .err (.unknownField value CompressedBatchProof.FIELDS)
  duplicate f :=
    match f with
    | .entries => .duplicateField "entries"
    | .lookupInners => .duplicateField "lookupInners"
  read f v :=
    match f with
    | .entries => readVec F (CompressedBatchEntry.deserialize F) v
    | .lookupInners => readVec F (InnerOp.deserialize F) v

def CompressedBatchProof.serialize (m : CompressedBatchProof) : Result V := do
  let entries ← vecField F (CompressedBatchEntry.serialize F) "entries" m.entries
  let lookupInners ← vecField F (InnerOp.serialize F) "lookupInners" m.lookupInners
  return F.struct "cosmos.ics23.v1.CompressedBatchProof" [entries, lookupInners].flatten

def CompressedBatchProof.deserialize (v : V) : Result CompressedBatchProof := do
  let es ← F.entries "cosmos.ics23.v1.CompressedBatchProof" CompressedBatchProof.FIELDS v
  let s ← (CompressedBatchProof.visitor F).visit (CompressedBatchProof.visitor F).empty es
  return {
    entries := unwrapOrDefault (List CompressedBatchEntry) (s .entries)
    lookupInners := unwrapOrDefault (List InnerOp) (s .lookupInners) }

/-! ## Proofs -/

inductive CommitmentProof.GeneratedField where
  | exist
  | nonexist
  | batch
  | compressed
  deriving DecidableEq

def CommitmentProof.FIELDS : List String := ["exist", "nonexist", "batch", "compressed"]

abbrev CommitmentProof.visitor : Visitor Panic Error V where
  Field := CommitmentProof.GeneratedField
  Slot := Unit
  Value _ := CommitmentProof
  slot _ := ()
  recognize value :=
    match value with
    | "exist" => .ok .exist
    | "nonexist" => .ok .nonexist
    | "batch" => .ok .batch
    | "compressed" => .ok .compressed
    | _ => .err (.unknownField value CommitmentProof.FIELDS)
  duplicate f :=
    match f with
    | .exist => .duplicateField "exist"
    | .nonexist => .duplicateField "nonexist"
    | .batch => .duplicateField "batch"
    | .compressed => .duplicateField "compressed"
  read f v :=
    match f with
    | .exist => readMember F (ExistenceProof.deserialize F) .exist v
    | .nonexist => readMember F (NonExistenceProof.deserialize F) .nonexist v
    | .batch => readMember F (BatchProof.deserialize F) .batch v
    | .compressed => readMember F (CompressedBatchProof.deserialize F) .compressed v

/-- The field of the member that is set. -/
def CommitmentProof.serializeProof (m : CommitmentProof) : Result (List (String × V)) :=
  match m with
  | .exist ex => memberField (ExistenceProof.serialize F) "exist" ex
  | .nonexist non => memberField (NonExistenceProof.serialize F) "nonexist" non
  | .batch b => memberField (BatchProof.serialize F) "batch" b
  | .compressed c => memberField (CompressedBatchProof.serialize F) "compressed" c
  | .none => .ok []

def CommitmentProof.serialize (m : CommitmentProof) : Result V := do
  return F.struct "cosmos.ics23.v1.CommitmentProof" (← CommitmentProof.serializeProof F m)

def CommitmentProof.deserialize (v : V) : Result CommitmentProof := do
  let es ← F.entries "cosmos.ics23.v1.CommitmentProof" CommitmentProof.FIELDS v
  let s ← (CommitmentProof.visitor F).visit (CommitmentProof.visitor F).empty es
  return (s ()).getD .none

end Ics23.Rust.Serde
