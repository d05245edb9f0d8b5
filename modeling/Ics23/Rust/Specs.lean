import Ics23.Rust.Messages

/-!
# The built-in specs and the IAVL prefix check

The specs of `api.rs`, the test that recognises the IAVL spec, and the checks on leaf and inner
prefixes made under it.
-/

namespace Ics23.Rust

def iavlLeafSpec : LeafOp where
  hash := 1
  prehashKey := 0
  prehashValue := 1
  length := 1
  prefix_ := [0]

def iavlInnerSpec : InnerSpec where
  childOrder := [0, 1]
  minPrefixLength := 4
  maxPrefixLength := 12
  childSize := 33
  emptyChild := []
  hash := 1

def iavlSpec : ProofSpec where
  leafSpec := some iavlLeafSpec
  innerSpec := some iavlInnerSpec
  minDepth := 0
  maxDepth := 0
  prehashKeyBeforeComparison := false

def tendermintLeafSpec : LeafOp where
  hash := 1
  prehashKey := 0
  prehashValue := 1
  length := 1
  prefix_ := [0]

def tendermintInnerSpec : InnerSpec where
  childOrder := [0, 1]
  minPrefixLength := 1
  maxPrefixLength := 1
  childSize := 32
  emptyChild := []
  hash := 1

def tendermintSpec : ProofSpec where
  leafSpec := some tendermintLeafSpec
  innerSpec := some tendermintInnerSpec
  minDepth := 0
  maxDepth := 0
  prehashKeyBeforeComparison := false

def smtLeafSpec : LeafOp where
  hash := 1
  prehashKey := 1
  prehashValue := 1
  length := 0
  prefix_ := [0]

def smtInnerSpec : InnerSpec where
  childOrder := [0, 1]
  minPrefixLength := 1
  maxPrefixLength := 1
  childSize := 32
  emptyChild := List.replicate 32 0
  hash := 1

def smtSpec : ProofSpec where
  leafSpec := some smtLeafSpec
  innerSpec := some smtInnerSpec
  minDepth := 0
  maxDepth := 0
  prehashKeyBeforeComparison := true

/-! ## Recognising the IAVL spec -/

def leafSpecEquals (left right : LeafOp) : Bool :=
  left.hash == right.hash && left.prehashKey == right.prehashKey &&
    left.prehashValue == right.prehashValue && left.length == right.length

def innerSpecEquals (left right : InnerSpec) : Bool :=
  left.hash == right.hash && left.minPrefixLength == right.minPrefixLength &&
    left.maxPrefixLength == right.maxPrefixLength && left.childSize == right.childSize &&
    left.childOrder.length == right.childOrder.length

def specEquals (left right : ProofSpec) : Bool :=
  match left.leafSpec, left.innerSpec, right.leafSpec, right.innerSpec with
  | some leftLeafSpec, some leftInnerSpec, some rightLeafSpec, some rightInnerSpec =>
    leafSpecEquals leftLeafSpec rightLeafSpec && innerSpecEquals leftInnerSpec rightInnerSpec
  | _, _, _, _ => false

def isIavlSpec (spec : ProofSpec) : Bool := specEquals spec iavlSpec

/-! ## IAVL prefixes -/

variable (P : Prost)

/-- A signed varint, and the bytes after it. -/
def readVarint (buf : Bytes) : Option (ℤ × Bytes) := do
  let (ux, buf) ← P.decodeVarint buf
  let x : ℤ := (ux / 2 : ℕ)
  -- `try_into` an `i64`
  if 2 ^ 63 ≤ x then none
  else if ux % 2 ≠ 0 then some (-x - 1, buf)
  else some (x, buf)

def ensureIavlPrefix (prefix_ : Bytes) (minHeight : ℤ) : Result (Option ℕ) := do
  let (height, prefix_) ←
    okOr (readVarint P prefix_) "error decoding height in IAVL prefix encoding"
  ensure (minHeight ≤ height) "wrong height in IAVL prefix encoding"
  let (size, prefix_) ← okOr (readVarint P prefix_) "error decoding size in IAVL prefix encoding"
  ensure (0 ≤ size) "wrong size in IAVL prefix encoding"
  let (version, prefix_) ←
    okOr (readVarint P prefix_) "error decoding version in IAVL prefix encoding"
  ensure (0 ≤ version) "wrong version in IAVL prefix encoding"
  return some prefix_.length

def ensureLeafPrefix (prefix_ : Bytes) (spec : ProofSpec) : Result Unit :=
  if !isIavlSpec spec then .ok ()
  else do
    match ← ensureIavlPrefix P prefix_ 0 with
    | none => return ()
    | some remainingBytes => ensure (remainingBytes = 0) "bad prefix in leaf"

def ensureInnerPrefix (prefix_ : Bytes) (spec : ProofSpec) (minHeight : ℤ) (hashOp : Int32) :
    Result Unit :=
  if !isIavlSpec spec then .ok ()
  else do
    match ← ensureIavlPrefix P prefix_ minHeight with
    | none => return ()
    | some remainingBytes =>
      ensure (remainingBytes = 1 ∨ remainingBytes = 34)
        ("bad prefix in layer " ++ toString minHeight)
      ensure (hashOp = 1) "bad hash op"

end Ics23.Rust
