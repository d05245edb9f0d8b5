import Ics23.Lib.MerkleTree
import Ics23.Go.Ops

/-!
# Verifying proofs in the Go module

The functions of `proof.go`, with their error messages and panics, and the two verification
functions of `ics23.go`.
-/

namespace Ics23.Go

variable (H : HostFunctionsProvider)

/-! ## Existence -/

/-- The test that `calculate` makes on every intermediate hash when a spec is given.  The error it
wraps is nil. -/
def checkChildSize (spec : Option ProofSpec) (res : Bytes) : Result Unit :=
  match spec with
  | none => .ok ()
  | some spec => do
    let innerSpec ← deref spec.innerSpec
    ensure (¬ (innerSpec.childSize.toInt < res.length ∧ 32 ≤ innerSpec.childSize.toInt))
      "inner, %!w(<nil>)"

/-- The loop of `calculate` over the path. -/
def calculatePath (spec : Option ProofSpec) : Bytes → List InnerOp → Hashing Bytes
  | res, [] => pure res
  | res, step :: path => do
    let res ← (step.apply H res).mapErr ("inner, " ++ ·)
    checkChildSize spec res
    calculatePath spec res path

def ExistenceProof.calculate (p : ExistenceProof) (spec : Option ProofSpec) : Hashing Bytes :=
  match p.leaf with
  | none => (fail "existence Proof needs defined LeafOp" : Result Bytes)
  | some leaf => do
    let res ← (LeafOp.apply H leaf p.key.bytes p.value).mapErr ("leaf, " ++ ·)
    calculatePath H spec res p.path

/-- The loop of `CheckAgainstSpec` over the path. -/
def checkPath (spec : ProofSpec) : ℤ → List InnerOp → Result Unit
  | _, [] => .ok ()
  | layerNum, inner :: path => do
    wrap "inner, " (inner.checkAgainstSpec spec layerNum)
    checkPath spec (layerNum + 1) path

def ExistenceProof.checkAgainstSpec (p : ExistenceProof) (spec : ProofSpec) : Result Unit :=
  match p.leaf with
  | none => fail "existence Proof needs defined LeafOp"
  | some leaf => do
    wrap "leaf, " (LeafOp.checkAgainstSpec leaf spec)
    ensure (¬ (0 < spec.minDepth ∧ p.path.length < spec.minDepth.toInt))
      ("innerOps depth too short: " ++ toString p.path.length)
    let maxDepth : Int32 := if spec.maxDepth = 0 then 128 else spec.maxDepth
    ensure (¬ p.path.length > maxDepth.toInt)
      ("innerOps depth too long: " ++ toString p.path.length)
    checkPath spec 1 p.path

def ExistenceProof.verify (p : ExistenceProof) (spec : ProofSpec) (root key value : Bytes) :
    Hashing Unit := do
  p.checkAgainstSpec spec
  ensure (key = p.key.bytes) "provided key doesn't match proof"
  ensure (value = p.value) "provided value doesn't match proof"
  let calc_ ← (p.calculate H (some spec)).mapErr ("error calculating root, " ++ ·)
  ensure (root = calc_) "calculated root doesn't match provided root"

/-! ## Padding -/

/-- The three numbers that `getPadding` returns. -/
structure Padding where
  minPrefix : ℤ
  maxPrefix : ℤ
  suffix : ℤ
  deriving DecidableEq, Repr

def hasPadding (op : InnerOp) (pad : Padding) : Bool :=
  if op.prefix_.length < pad.minPrefix then false
  else if op.prefix_.length > pad.maxPrefix then false
  else op.suffix.bytes.length == pad.suffix

def getPosition (order : List Int32) (branch : Int32) : Result ℕ :=
  if branch < 0 ∨ branch.toInt ≥ order.length then fail ("invalid branch: " ++ toString branch)
  else
    match order.findIdx? (· = branch) with
    | some i => .ok i
    | none =>
      fail ("branch " ++ toString branch ++ " not found in order " ++
        formatSlice (order.map toString))

def getPadding (spec : InnerSpec) (branch : Int32) : Result Padding := do
  let idx ← getPosition spec.childOrder branch
  let prefix_ := int (idx * spec.childSize.toInt)
  let minPrefix := int (prefix_ + spec.minPrefixLength.toInt)
  let maxPrefix := int (prefix_ + spec.maxPrefixLength.toInt)
  let suffix := int (((spec.childOrder.length : ℤ) - 1 - idx) * spec.childSize.toInt)
  return { minPrefix, maxPrefix, suffix }

/-- The loop of `orderFromPadding` over the branches. -/
def firstBranch (spec : InnerSpec) (inner : InnerOp) : List ℕ → Result Int32
  | [] => fail "cannot find any valid spacing for this node"
  | branch :: branches => do
    let pad ← getPadding spec (Int32.ofNat branch)
    if hasPadding inner pad then return Int32.ofNat branch else firstBranch spec inner branches

def orderFromPadding (spec : InnerSpec) (inner : InnerOp) : Result Int32 :=
  firstBranch spec inner (List.range (Int32.ofNat spec.childOrder.length).toInt.toNat)

/-- The loops of `leftBranchesAreEmpty` and `rightBranchesAreEmpty`: the slots of the given branches
in `bytes`, counted from the offset `base`, all hold the empty child. -/
def branchesAreEmpty (spec : InnerSpec) (bytes : Bytes) (base : ℤ) : List ℕ → Result Bool
  | [] => .ok true
  | i :: is => do
    let idx ← getPosition spec.childOrder (Int32.ofNat i)
    let from_ := int (base + int (idx * spec.childSize.toInt))
    let child ← slice bytes from_ (int (from_ + spec.childSize.toInt))
    if spec.emptyChild ≠ child then return false else branchesAreEmpty spec bytes base is

/-- `leftBranchesAreEmpty` where `array` is the prefix and what is behind it up to its capacity. -/
def leftBranchesAreEmptyIn (array : Bytes) (spec : InnerSpec) (op : InnerOp) : Result Bool := do
  let idx ← orderFromPadding spec op
  let leftBranches := idx.toInt
  if leftBranches = 0 then return false
  let actualPrefix := int (op.prefix_.length - int (leftBranches * spec.childSize.toInt))
  if actualPrefix < 0 then return false
  branchesAreEmpty spec array actualPrefix (List.range leftBranches.toNat)

def leftBranchesAreEmpty (spec : InnerSpec) (op : InnerOp) : Result Bool :=
  leftBranchesAreEmptyIn op.prefix_ spec op

/-- `rightBranchesAreEmpty` where `array` is the suffix and what is behind it up to its capacity. -/
def rightBranchesAreEmptyIn (array : Bytes) (spec : InnerSpec) (op : InnerOp) : Result Bool := do
  let idx ← orderFromPadding spec op
  let rightBranches := (spec.childOrder.length : ℤ) - 1 - idx.toInt
  if rightBranches = 0 then return false
  if op.suffix.bytes.length ≠ int (rightBranches * spec.childSize.toInt) then return false
  branchesAreEmpty spec array 0 (List.range rightBranches.toNat)

def rightBranchesAreEmpty (spec : InnerSpec) (op : InnerOp) : Result Bool :=
  rightBranchesAreEmptyIn op.suffix.bytes spec op

/-! ## Neighbours -/

/-- The loops of `IsLeftMost` and `IsRightMost`: every step has the padding `pad`, or passes the
test `empty`. -/
def isOutermost (pad : Padding) (empty : InnerOp → Result Bool) : List InnerOp → Result Bool
  | [] => .ok true
  | step :: path =>
    if hasPadding step pad then isOutermost pad empty path
    else do
      if ← empty step then isOutermost pad empty path else return false

def isLeftMost (spec : InnerSpec) (path : List InnerOp) : Result Bool := do
  let pad ← getPadding spec 0
  isOutermost pad (leftBranchesAreEmpty spec) path

def isRightMost (spec : InnerSpec) (path : List InnerOp) : Result Bool := do
  let last := (spec.childOrder.length : ℤ) - 1
  let pad ← getPadding spec (Int32.ofInt last)
  isOutermost pad (rightBranchesAreEmpty spec) path

/-- An error of `orderFromPadding` becomes a panic. -/
def orderOrPanic (spec : InnerSpec) (inner : InnerOp) : Result Int32 :=
  match orderFromPadding spec inner with
  | .err msg => .panic (.raised msg)
  | x => x

def isLeftStep (spec : InnerSpec) (left right : InnerOp) : Result Bool := do
  let leftidx ← orderOrPanic spec left
  let rightidx ← orderOrPanic spec right
  return rightidx = leftidx + 1

/-- The two steps have the same prefix and the same suffix. -/
def sameStep (left right : InnerOp) : Bool :=
  left.prefix_ == right.prefix_ && left.suffix.bytes == right.suffix.bytes

/-- The loop of `IsLeftNeighbor` that takes the common tail off two paths, here given as stacks with
the step next to the root on top: the first steps that differ, and what is left. -/
def popCommon (left right : List InnerOp) :
    Result (InnerOp × InnerOp × List InnerOp × List InnerOp) :=
  Ics23.popCommon sameStep .outOfRange left right

/-- The spec is a pointer, which is followed only after the common tail is gone. -/
def isLeftNeighbor (spec : Option InnerSpec) (left right : List InnerOp) : Result Bool := do
  let (topleft, topright, left, right) ← popCommon left.reverse right.reverse
  let spec ← deref spec
  if !(← isLeftStep spec topleft topright) then return false
  if !(← isRightMost spec left.reverse) then return false
  isLeftMost spec right.reverse

/-! ## Non-existence -/

/-- An error of the hash function is dropped, and leaves a nil slice. -/
def keyForComparison (spec : ProofSpec) (key : Bytes) : Hashing Bytes :=
  if !spec.prehashKeyBeforeComparison then pure key
  else do
    let leafSpec ← deref spec.leafSpec
    (doHashOrNoop H leafSpec.prehashKey key).recover []

/-- `bytes.Compare` on two keys, as the spec compares them. -/
def compareKeys (spec : ProofSpec) (key other : Bytes) : Hashing Ordering := do
  let key ← keyForComparison H spec key
  let other ← keyForComparison H spec other
  return compareBytes key other

/-- The two blocks of `NonExistenceProof.Verify` on its sides. -/
def verifySide (side : Option ExistenceProof) (spec : ProofSpec) (root : Bytes) (msg : String) :
    Hashing Unit :=
  match side with
  | none => pure ()
  | some p => (p.verify H spec root p.key.bytes p.value).mapErr (msg ++ ·)

/-- The two checks of `NonExistenceProof.Verify` on the range of the key. -/
def ensureRange (spec : ProofSpec) (key : Bytes) (side : Slice) (order : Ordering) (msg : String) :
    Hashing Unit :=
  match side with
  | none => pure ()
  | some sideKey => do
    ensure ((← compareKeys H spec key sideKey) = order) msg

/-- The variables `leftKey` and `rightKey` of `NonExistenceProof.Verify`. -/
def sideKey (side : Option ExistenceProof) : Slice := side.bind (·.key)

/-- The switch at the end of `NonExistenceProof.Verify`. -/
def checkNeighbors (spec : ProofSpec) (left right : Option ExistenceProof) : Result Unit :=
  match sideKey left, sideKey right with
  | none, _ => do
    let right ← deref right
    ensure (← isLeftMost (← deref spec.innerSpec) right.path)
      "left proof missing, right proof must be left-most"
  | some _, none => do
    let left ← deref left
    ensure (← isRightMost (← deref spec.innerSpec) left.path)
      "right proof missing, left proof must be right-most"
  | some _, some _ => do
    let left ← deref left
    let right ← deref right
    ensure (← isLeftNeighbor spec.innerSpec left.path right.path)
      "right proof missing, left proof must be right-most"

def NonExistenceProof.verify (p : NonExistenceProof) (spec : ProofSpec) (root key : Bytes) :
    Hashing Unit := do
  verifySide H p.left spec root "left proof, "
  verifySide H p.right spec root "right proof, "
  ensure (¬ (sideKey p.left = none ∧ sideKey p.right = none)) "both left and right proofs missing"
  ensureRange H spec key (sideKey p.right) .lt "key is not left of right proof"
  ensureRange H spec key (sideKey p.left) .gt "key is not right of left proof"
  checkNeighbors spec p.left p.right

/-! ## Membership -/

def verifyMembership (spec : ProofSpec) (root : Bytes) (proof : Option CommitmentProof)
    (key value : Bytes) : Hashing Bool :=
  match proof.bind CommitmentProof.getExist with
  | none => pure false
  | some ep => (ep.verify H spec root key value).isOk

def verifyNonMembership (spec : ProofSpec) (root : Bytes) (proof : Option CommitmentProof)
    (key : Bytes) : Hashing Bool :=
  match proof.bind CommitmentProof.getNonexist with
  | none => pure false
  | some np => (np.verify H spec root key).isOk

end Ics23.Go
