import Ics23.Go.Pb

/-!
# Unmarshalling

The methods of `proofs.pb.go` that read a message.  They go through a slice `dAtA` by an index
`iNdEx`, field by field, and change the message they are called on; a field that is not known is
skipped by `skipProofs`.

A loop of the code makes a bounded number of rounds here, and panics when they do not suffice.
-/

namespace Ics23.Go

open Outcome

/-! ## Errors -/

def errInvalidLengthProofs : String := "proto: negative length found during unmarshaling"

def errIntOverflowProofs : String := "proto: integer overflow"

def errUnexpectedEndOfGroupProofs : String := "proto: unexpected end of group"

/-- `io.ErrUnexpectedEOF`. -/
def errUnexpectedEOF : String := "unexpected EOF"

def errWrongWireType (wireType : ℕ) (field : String) : String :=
  "proto: wrong wireType = " ++ toString wireType ++ " for field " ++ field

/-- A loop that does not end within its rounds. -/
def outOfRounds {α : Type} : Result α := .panic (.raised "out of rounds")

/-! ## Parts of a field -/

/-- The loop that reads a varint into a variable of `w` bits, and the index after it. -/
def varintLoop {w : ℕ} (dAtA : Bytes) : ℕ → ℕ → BitVec w → ℕ → Result (BitVec w × ℕ)
  -- `shift >= 64`
  | 0, _, _, _ => fail errIntOverflowProofs
  | rounds + 1, shift, v, iNdEx =>
    match dAtA[iNdEx]? with
    | none => fail errUnexpectedEOF
    | some b =>
      let v := v ||| BitVec.ofNat w (b &&& 0x7F).toNat <<< shift
      if b < 0x80 then .ok (v, iNdEx + 1) else varintLoop dAtA rounds (shift + 7) v (iNdEx + 1)

def varint (w : ℕ) (dAtA : Bytes) (iNdEx : ℕ) : Result (BitVec w × ℕ) :=
  varintLoop dAtA 10 0 0 iNdEx

/-- The length of a payload as a varint, and the values of `iNdEx` and `postIndex`. -/
def payloadBounds (dAtA : Bytes) (iNdEx : ℕ) : Result (ℕ × ℤ) := do
  let (byteLen, iNdEx) ← varint 64 dAtA iNdEx
  ensure (¬ byteLen.toInt < 0) errInvalidLengthProofs
  let postIndex := int (iNdEx + byteLen.toInt)
  ensure (¬ postIndex < 0) errInvalidLengthProofs
  ensure (¬ postIndex > dAtA.length) errUnexpectedEOF
  return (iNdEx, postIndex)

/-- One round of the loop of `skipProofs` after the tag: the new `depth` and `iNdEx`. -/
def skipRound (dAtA : Bytes) (wireType depth iNdEx : ℕ) : Result (ℕ × ℤ) :=
  match wireType with
  | 0 => do
    -- this loop does not keep the value
    let (_, iNdEx) ← varint 64 dAtA iNdEx
    return (depth, iNdEx)
  | 1 => .ok (depth, int (iNdEx + 8))
  | 2 => do
    let (length, iNdEx) ← varint 64 dAtA iNdEx
    ensure (¬ length.toInt < 0) errInvalidLengthProofs
    return (depth, int (iNdEx + length.toInt))
  | 3 => .ok (depth + 1, iNdEx)
  | 4 => do
    ensure (depth ≠ 0) errUnexpectedEndOfGroupProofs
    return (depth - 1, iNdEx)
  | 5 => .ok (depth, int (iNdEx + 4))
  | wireType => fail ("proto: illegal wireType " ++ toString wireType)

def skipLoop (dAtA : Bytes) : ℕ → ℕ → ℕ → Result ℤ
  | 0, _, _ => outOfRounds
  | rounds + 1, depth, iNdEx =>
    if iNdEx < dAtA.length then do
      let (wire, iNdEx) ← varint 64 dAtA iNdEx
      let (depth, iNdEx) ← skipRound dAtA (wire &&& 0x7).toNat depth iNdEx
      ensure (¬ iNdEx < 0) errInvalidLengthProofs
      if depth = 0 then return iNdEx else skipLoop dAtA rounds depth iNdEx.toNat
    else fail errUnexpectedEOF

def skipProofs (dAtA : Bytes) : Result ℤ := skipLoop dAtA (dAtA.length + 1) 0 0

/-! ## Fields -/

variable {M : Type}

/-- A case of the switch over the fields of a message, by the type of the field. -/
inductive Field (M : Type) where
  /-- An `int32` or an enumeration. -/
  | int32 (name : String) (set : Int32 → M → M)
  | bool (name : String) (set : Bool → M → M)
  | bytes (name : String) (set : Bytes → M → M)
  /-- An embedded message, read into the one that is there or into a new one. -/
  | message (name : String) (merge : Bytes → M → Result M)
  /-- A repeated `int32`, packed or not. -/
  | packed (name : String) (append : Int32 → M → M)

/-- The loop over packed integers. -/
def packedLoop (append : Int32 → M → M) (dAtA : Bytes) (postIndex : ℤ) :
    ℕ → M → ℕ → Result (M × ℕ)
  | 0, _, _ => outOfRounds
  | rounds + 1, m, iNdEx =>
    if iNdEx < postIndex then do
      let (v, iNdEx) ← varint 32 dAtA iNdEx
      packedLoop append dAtA postIndex rounds (append (.ofBitVec v) m) iNdEx
    else .ok (m, iNdEx)

/-- A case of the switch, from the index after the tag to the index after the field. -/
def Field.unmarshal (field : Field M) (wireType : ℕ) (dAtA : Bytes) (m : M) (iNdEx : ℕ) :
    Result (M × ℕ) :=
  match field with
  | .int32 name set => do
    ensure (wireType = 0) (errWrongWireType wireType name)
    let (v, iNdEx) ← varint 32 dAtA iNdEx
    return (set (.ofBitVec v) m, iNdEx)
  | .bool name set => do
    ensure (wireType = 0) (errWrongWireType wireType name)
    let (v, iNdEx) ← varint 64 dAtA iNdEx
    return (set (v ≠ 0) m, iNdEx)
  | .bytes name set => do
    ensure (wireType = 2) (errWrongWireType wireType name)
    let (iNdEx, postIndex) ← payloadBounds dAtA iNdEx
    let b ← slice dAtA iNdEx postIndex
    return (set b m, postIndex.toNat)
  | .message name merge => do
    ensure (wireType = 2) (errWrongWireType wireType name)
    let (iNdEx, postIndex) ← payloadBounds dAtA iNdEx
    let b ← slice dAtA iNdEx postIndex
    let m ← merge b m
    return (m, postIndex.toNat)
  | .packed name append =>
    if wireType = 0 then do
      let (v, iNdEx) ← varint 32 dAtA iNdEx
      return (append (.ofBitVec v) m, iNdEx)
    else if wireType = 2 then do
      let (iNdEx, postIndex) ← payloadBounds dAtA iNdEx
      packedLoop append dAtA postIndex (dAtA.length + 1) m iNdEx
    else fail (errWrongWireType wireType name)

/-- The `default` case of the switch: the index after a field that begins at `preIndex`. -/
def skipUnknown (dAtA : Bytes) (preIndex : ℕ) : Result ℕ := do
  let skippy ← skipProofs (← slice dAtA preIndex dAtA.length)
  ensure (¬ (skippy < 0 ∨ int (preIndex + skippy) < 0)) errInvalidLengthProofs
  ensure (¬ int (preIndex + skippy) > dAtA.length) errUnexpectedEOF
  return (int (preIndex + skippy)).toNat

/-- The loop of an `Unmarshal` method. -/
def unmarshalLoop (name : String) (fields : List (Int32 × Field M)) (dAtA : Bytes) :
    ℕ → M → ℕ → Result M
  | 0, _, _ => outOfRounds
  | rounds + 1, m, iNdEx =>
    if iNdEx < dAtA.length then do
      let preIndex := iNdEx
      let (wire, iNdEx) ← varint 64 dAtA iNdEx
      let fieldNum := Int32.ofBitVec ((wire >>> 3).setWidth 32)
      let wireType := (wire &&& 0x7).toNat
      ensure (wireType ≠ 4) ("proto: " ++ name ++ ": wiretype end group for non-group")
      ensure (¬ fieldNum ≤ 0) ("proto: " ++ name ++ ": illegal tag " ++ toString fieldNum ++
        " (wire type " ++ toString wire.toNat ++ ")")
      match fields.lookup fieldNum with
      | some field => do
        let (m, iNdEx) ← field.unmarshal wireType dAtA m iNdEx
        unmarshalLoop name fields dAtA rounds m iNdEx
      | none => do
        let iNdEx ← skipUnknown dAtA preIndex
        unmarshalLoop name fields dAtA rounds m iNdEx
    else do
      ensure (¬ iNdEx > dAtA.length) errUnexpectedEOF
      return m

/-- The method `Unmarshal` of a message. -/
def unmarshal (name : String) (fields : List (Int32 × Field M)) (m : M) (dAtA : Bytes) : Result M :=
  unmarshalLoop name fields dAtA (dAtA.length + 1) m 0

/-! ## The messages -/

/-- The value `&LeafOp{}`, and so on for the other messages. -/
def LeafOp.new : LeafOp := ⟨0, 0, 0, 0, []⟩

def InnerOp.new : InnerOp := ⟨0, [], none⟩

def InnerSpec.new : InnerSpec := ⟨[], 0, 0, 0, [], 0⟩

def ProofSpec.new : ProofSpec := ⟨none, none, 0, 0, false⟩

def ExistenceProof.new : ExistenceProof := ⟨none, [], none, []⟩

def NonExistenceProof.new : NonExistenceProof := ⟨[], none, none⟩

def BatchEntry.new : BatchEntry := .none

def BatchProof.new : BatchProof := ⟨[]⟩

def CompressedExistenceProof.new : CompressedExistenceProof := ⟨[], [], none, []⟩

def CompressedNonExistenceProof.new : CompressedNonExistenceProof := ⟨[], none, none⟩

def CompressedBatchEntry.new : CompressedBatchEntry := .none

def CompressedBatchProof.new : CompressedBatchProof := ⟨[], []⟩

def Pb.CommitmentProof.new : Pb.CommitmentProof := .none

/-- The cases of the switches, by the numbers of the fields. -/
def LeafOp.fields : List (Int32 × Field LeafOp) :=
  [(1, .int32 "Hash" fun v m => { m with hash := v }),
   (2, .int32 "PrehashKey" fun v m => { m with prehashKey := v }),
   (3, .int32 "PrehashValue" fun v m => { m with prehashValue := v }),
   (4, .int32 "Length" fun v m => { m with length := v }),
   (5, .bytes "Prefix" fun b m => { m with prefix_ := b })]

def LeafOp.unmarshal : LeafOp → Bytes → Result LeafOp := Go.unmarshal "LeafOp" LeafOp.fields

def InnerOp.fields : List (Int32 × Field InnerOp) :=
  [(1, .int32 "Hash" fun v m => { m with hash := v }),
   (2, .bytes "Prefix" fun b m => { m with prefix_ := b }),
   (3, .bytes "Suffix" fun b m => { m with suffix := some b })]

def InnerOp.unmarshal : InnerOp → Bytes → Result InnerOp := Go.unmarshal "InnerOp" InnerOp.fields

def InnerSpec.fields : List (Int32 × Field InnerSpec) :=
  [(1, .packed "ChildOrder" fun v m => { m with childOrder := m.childOrder ++ [v] }),
   (2, .int32 "ChildSize" fun v m => { m with childSize := v }),
   (3, .int32 "MinPrefixLength" fun v m => { m with minPrefixLength := v }),
   (4, .int32 "MaxPrefixLength" fun v m => { m with maxPrefixLength := v }),
   (5, .bytes "EmptyChild" fun b m => { m with emptyChild := b }),
   (6, .int32 "Hash" fun v m => { m with hash := v })]

def InnerSpec.unmarshal : InnerSpec → Bytes → Result InnerSpec :=
  Go.unmarshal "InnerSpec" InnerSpec.fields

def ProofSpec.fields : List (Int32 × Field ProofSpec) :=
  [(1, .message "LeafSpec" fun b m => do
    return { m with leafSpec := some (← LeafOp.unmarshal (m.leafSpec.getD LeafOp.new) b) }),
   (2, .message "InnerSpec" fun b m => do
    return { m with innerSpec := some (← InnerSpec.unmarshal (m.innerSpec.getD InnerSpec.new) b) }),
   (3, .int32 "MaxDepth" fun v m => { m with maxDepth := v }),
   (4, .int32 "MinDepth" fun v m => { m with minDepth := v }),
   (5, .bool "PrehashKeyBeforeComparison" fun v m => { m with prehashKeyBeforeComparison := v })]

def ProofSpec.unmarshal : ProofSpec → Bytes → Result ProofSpec :=
  Go.unmarshal "ProofSpec" ProofSpec.fields

def ExistenceProof.fields : List (Int32 × Field ExistenceProof) :=
  [(1, .bytes "Key" fun b m => { m with key := some b }),
   (2, .bytes "Value" fun b m => { m with value := b }),
   (3, .message "Leaf" fun b m => do
    return { m with leaf := some (← LeafOp.unmarshal (m.leaf.getD LeafOp.new) b) }),
   (4, .message "Path" fun b m => do
    return { m with path := m.path ++ [← InnerOp.new.unmarshal b] })]

def ExistenceProof.unmarshal : ExistenceProof → Bytes → Result ExistenceProof :=
  Go.unmarshal "ExistenceProof" ExistenceProof.fields

def NonExistenceProof.fields : List (Int32 × Field NonExistenceProof) :=
  [(1, .bytes "Key" fun b m => { m with key := b }),
   (2, .message "Left" fun b m => do
    return { m with left := some (← (m.left.getD .new).unmarshal b) }),
   (3, .message "Right" fun b m => do
    return { m with right := some (← (m.right.getD .new).unmarshal b) })]

def NonExistenceProof.unmarshal : NonExistenceProof → Bytes → Result NonExistenceProof :=
  Go.unmarshal "NonExistenceProof" NonExistenceProof.fields

def BatchEntry.fields : List (Int32 × Field BatchEntry) :=
  [(1, .message "Exist" fun b _ => do return .exist (some (← ExistenceProof.new.unmarshal b))),
   (2, .message "Nonexist" fun b _ => do
    return .nonexist (some (← NonExistenceProof.new.unmarshal b)))]

def BatchEntry.unmarshal : BatchEntry → Bytes → Result BatchEntry :=
  Go.unmarshal "BatchEntry" BatchEntry.fields

def BatchProof.fields : List (Int32 × Field BatchProof) :=
  [(1, .message "Entries" fun b m => do
    return { m with entries := m.entries ++ [← BatchEntry.new.unmarshal b] })]

def BatchProof.unmarshal : BatchProof → Bytes → Result BatchProof :=
  Go.unmarshal "BatchProof" BatchProof.fields

def CompressedExistenceProof.fields : List (Int32 × Field CompressedExistenceProof) :=
  [(1, .bytes "Key" fun b m => { m with key := b }),
   (2, .bytes "Value" fun b m => { m with value := b }),
   (3, .message "Leaf" fun b m => do
    return { m with leaf := some (← LeafOp.unmarshal (m.leaf.getD LeafOp.new) b) }),
   (4, .packed "Path" fun v m => { m with path := m.path ++ [v] })]

def CompressedExistenceProof.unmarshal :
    CompressedExistenceProof → Bytes → Result CompressedExistenceProof :=
  Go.unmarshal "CompressedExistenceProof" CompressedExistenceProof.fields

def CompressedNonExistenceProof.fields : List (Int32 × Field CompressedNonExistenceProof) :=
  [(1, .bytes "Key" fun b m => { m with key := b }),
   (2, .message "Left" fun b m => do
    return { m with left := some (← (m.left.getD .new).unmarshal b) }),
   (3, .message "Right" fun b m => do
    return { m with right := some (← (m.right.getD .new).unmarshal b) })]

def CompressedNonExistenceProof.unmarshal :
    CompressedNonExistenceProof → Bytes → Result CompressedNonExistenceProof :=
  Go.unmarshal "CompressedNonExistenceProof" CompressedNonExistenceProof.fields

def CompressedBatchEntry.fields : List (Int32 × Field CompressedBatchEntry) :=
  [(1, .message "Exist" fun b _ => do
    return .exist (some (← CompressedExistenceProof.new.unmarshal b))),
   (2, .message "Nonexist" fun b _ => do
    return .nonexist (some (← CompressedNonExistenceProof.new.unmarshal b)))]

def CompressedBatchEntry.unmarshal : CompressedBatchEntry → Bytes → Result CompressedBatchEntry :=
  Go.unmarshal "CompressedBatchEntry" CompressedBatchEntry.fields

def CompressedBatchProof.fields : List (Int32 × Field CompressedBatchProof) :=
  [(1, .message "Entries" fun b m => do
    return { m with entries := m.entries ++ [← CompressedBatchEntry.new.unmarshal b] }),
   (2, .message "LookupInners" fun b m => do
    return { m with lookupInners := m.lookupInners ++ [← InnerOp.new.unmarshal b] })]

def CompressedBatchProof.unmarshal : CompressedBatchProof → Bytes → Result CompressedBatchProof :=
  Go.unmarshal "CompressedBatchProof" CompressedBatchProof.fields

def Pb.CommitmentProof.fields : List (Int32 × Field Pb.CommitmentProof) :=
  [(1, .message "Exist" fun b _ => do return .exist (some (← ExistenceProof.new.unmarshal b))),
   (2, .message "Nonexist" fun b _ => do
    return .nonexist (some (← NonExistenceProof.new.unmarshal b))),
   (3, .message "Batch" fun b _ => do return .batch (some (← BatchProof.new.unmarshal b))),
   (4, .message "Compressed" fun b _ => do
    return .compressed (some (← CompressedBatchProof.new.unmarshal b)))]

def Pb.CommitmentProof.unmarshal : Pb.CommitmentProof → Bytes → Result Pb.CommitmentProof :=
  Go.unmarshal "CommitmentProof" Pb.CommitmentProof.fields

end Ics23.Go
