import Ics23.Lib.MerkleTree
import Ics23.Rust.Ops
import Ics23.Rust.Specs

/-!
# Verifying existence and non-existence proofs

The functions of `verify.rs`, with their error messages and their machine arithmetic.
-/

namespace Ics23.Rust

variable (H : HostFunctionsProvider) (P : Prost)

/-! ## Existence -/

/-- The test made on every intermediate hash when a spec is given. -/
def ensureChildSize (spec : Option ProofSpec) (hash : Bytes) : Result Unit :=
  match spec.bind (·.innerSpec) with
  | some innerSpec =>
    if asUsize innerSpec.childSize.toInt < hash.length ∧ 32 ≤ innerSpec.childSize.toInt then
      bail "Invalid inner operation (child_size)"
    else .ok ()
  | none => .ok ()

/-- One round of the loop of `calculate_existence_root_for_spec`. -/
def calculateStep (spec : Option ProofSpec) (hash : Bytes) (step : InnerOp) : Hashing Bytes := do
  let hash ← applyInner H step hash
  ensureChildSize spec hash
  return hash

/-- The loop of `calculate_existence_root_for_spec` over the path. -/
def calculatePath (spec : Option ProofSpec) : Bytes → List InnerOp → Hashing Bytes
  | hash, [] => pure hash
  | hash, step :: path => do
    let hash ← calculateStep H spec hash step
    calculatePath spec hash path

def calculateExistenceRootForSpec (proof : ExistenceProof) (spec : Option ProofSpec) :
    Hashing Bytes := do
  ensure (proof.key ≠ []) "Existence proof must have key set"
  ensure (proof.value ≠ []) "Existence proof must have value set"
  match proof.leaf with
  | some leafNode => do
    let hash ← applyLeaf H P leafNode proof.key proof.value
    calculatePath H spec hash proof.path
  | none => (bail "No leaf operation set" : Result Bytes)

def calculateExistenceRoot (proof : ExistenceProof) : Hashing Bytes :=
  calculateExistenceRootForSpec H P proof none

def hasPrefix (prefix_ data : Bytes) : Bool :=
  if data.length < prefix_.length then false else prefix_ == data.take prefix_.length

def ensureLeaf (leaf leafSpec : LeafOp) : Result Unit := do
  ensure (leafSpec.hash = leaf.hash) ("Unexpected hashOp: " ++ toString leaf.hash)
  ensure (leafSpec.prehashKey = leaf.prehashKey)
    ("Unexpected prehash_key: " ++ toString leaf.prehashKey)
  ensure (leafSpec.prehashValue = leaf.prehashValue)
    ("Unexpected prehash_value: " ++ toString leaf.prehashValue)
  ensure (leafSpec.length = leaf.length) ("Unexpected lengthOp: " ++ toString leaf.length)
  ensure (hasPrefix leafSpec.prefix_ leaf.prefix_) "Incorrect prefix on leaf"

def ensureInner (inner : InnerOp) (spec : ProofSpec) : Result Unit :=
  match spec.leafSpec, spec.innerSpec with
  | some leafSpec, some innerSpec => do
    ensure (inner.hash = innerSpec.hash) ("Unexpected hashOp: " ++ toString inner.hash)
    ensure (¬ hasPrefix leafSpec.prefix_ inner.prefix_) "Inner node with leaf prefix"
    ensure (asUsize innerSpec.minPrefixLength.toInt ≤ inner.prefix_.length)
      ("Inner prefix too short: " ++ toString inner.prefix_.length)
    let branches ← subUsize innerSpec.childOrder.length 1
    let maxLeftChildBytes ← mulI32 (asI32 branches) innerSpec.childSize.toInt
    let maxPrefix ← addI32 innerSpec.maxPrefixLength.toInt maxLeftChildBytes
    ensure (inner.prefix_.length ≤ asUsize maxPrefix)
      ("Inner prefix too long: " ++ toString inner.prefix_.length)
    ensure (0 < innerSpec.childSize.toInt) "spec.inner_spec.child_size must be >= 1"
    let bound ← addI32 innerSpec.minPrefixLength.toInt innerSpec.childSize.toInt
    ensure (innerSpec.maxPrefixLength.toInt < bound)
      ("spec.inner_spec.max_prefix_length must be < " ++
        "spec.inner_spec.min_prefix_length + spec.inner_spec.child_size")
    let rest ← remUsize inner.suffix.length (asUsize innerSpec.childSize.toInt)
    ensure (rest = 0) "InnerOp suffix malformed"
  | _, _ => bail "Spec requires both leaf_spec and inner_spec"

def ensureDepth (spec : ProofSpec) (depth : ℕ) : Result Unit :=
  if spec.minDepth ≠ 0 then do
    ensure (asUsize spec.minDepth.toInt ≤ depth) ("Too few InnerOps: " ++ toString depth)
    ensure (depth ≤ asUsize spec.maxDepth.toInt) ("Too many InnerOps: " ++ toString depth)
  else .ok ()

/-- The loop of `check_existence_spec`; `idx` is the position of the first step in the path, and
so far below `i64::MAX` that the layer number cannot overflow. -/
def ensureSteps (spec : ProofSpec) : ℕ → List InnerOp → Result Unit
  | _, [] => .ok ()
  | idx, step :: path => do
    ensureInnerPrefix P step.prefix_ spec ((idx : ℤ) + 1) step.hash
    ensureInner step spec
    ensureSteps spec (idx + 1) path

def checkExistenceSpec (proof : ExistenceProof) (spec : ProofSpec) : Result Unit :=
  match proof.leaf, spec.leafSpec with
  | some leaf, some leafSpec => do
    ensureLeafPrefix P leaf.prefix_ spec
    ensureLeaf leaf leafSpec
    ensureDepth spec proof.path.length
    ensureSteps P spec 0 proof.path
  | _, _ => bail "Leaf and Leaf Spec must be set"

def verifyExistence (proof : ExistenceProof) (spec : ProofSpec) (root key value : Bytes) :
    Hashing Unit := do
  checkExistenceSpec P proof spec
  ensure (proof.key = key) "Provided key doesn't match proof"
  ensure (proof.value = value) "Provided value doesn't match proof"
  let calculated ← calculateExistenceRootForSpec H P proof (some spec)
  ensure (calculated = root) "Root hash doesn't match"

/-! ## Padding -/

structure Padding where
  minPrefix : ℕ
  maxPrefix : ℕ
  suffix : ℕ
  deriving DecidableEq, Repr

def hasPadding (op : InnerOp) (pad : Padding) : Bool :=
  pad.minPrefix ≤ op.prefix_.length && op.prefix_.length ≤ pad.maxPrefix &&
    op.suffix.length == pad.suffix

/-- `spec.child_order.iter().find(|&&x| x == branch)`: the entry itself, not its position. -/
def findBranch (spec : InnerSpec) (branch : ℤ) : Option Int32 :=
  spec.childOrder.find? (·.toInt = branch)

def getPadding (spec : InnerSpec) (branch : ℤ) : Result Padding :=
  match findBranch spec branch with
  | some idx => do
    let prefix_ ← mulI32 idx.toInt spec.childSize.toInt
    let others ← subUsize (← subUsize spec.childOrder.length 1) (asUsize idx.toInt)
    let suffix ← mulUsize (asUsize spec.childSize.toInt) others
    let minPrefix ← addI32 prefix_ spec.minPrefixLength.toInt
    let maxPrefix ← addI32 prefix_ spec.maxPrefixLength.toInt
    return { minPrefix := asUsize minPrefix, maxPrefix := asUsize maxPrefix, suffix }
  | none => bail ("Branch " ++ toString branch ++ " not found")

/-- The loop of `order_from_padding` over the branches. -/
def firstBranch (spec : InnerSpec) (op : InnerOp) : List ℕ → Result ℤ
  | [] => bail "padding doesn't match any branch"
  | branch :: branches => do
    let padding ← getPadding spec branch
    if hasPadding op padding then return branch else firstBranch spec op branches

def orderFromPadding (spec : InnerSpec) (op : InnerOp) : Result ℤ :=
  firstBranch spec op (List.range (asI32 spec.childOrder.length).toNat)

/-- The loops of `left_branches_are_empty` and `right_branches_are_empty`: the slots of the given
branches in `bytes`, counted from the offset `base`, all hold the empty child. -/
def branchesAreEmpty (spec : InnerSpec) (bytes : Bytes) (base : ℕ) : List ℕ → Result Bool
  | [] => .ok true
  | i :: is =>
    match findBranch spec i with
    | some idx => do
      let childSize := asUsize spec.childSize.toInt
      let from_ ← addUsize base (← mulUsize (asUsize idx.toInt) childSize)
      let child ← slice bytes from_ (← addUsize from_ childSize)
      if spec.emptyChild ≠ child then return false else branchesAreEmpty spec bytes base is
    | none => .panic .unwrapNone

def leftBranchesAreEmpty (spec : InnerSpec) (op : InnerOp) : Result Bool := do
  let idx ← orderFromPadding spec op
  let leftBranches := asUsize idx
  if leftBranches = 0 then return false
  let siblings ← mulUsize leftBranches (asUsize spec.childSize.toInt)
  -- `checked_sub`
  if op.prefix_.length < siblings then return false
  branchesAreEmpty spec op.prefix_ (op.prefix_.length - siblings) (List.range leftBranches)

def rightBranchesAreEmpty (spec : InnerSpec) (op : InnerOp) : Result Bool := do
  let idx ← orderFromPadding spec op
  let rightBranches ← subUsize (← subUsize spec.childOrder.length 1) (asUsize idx)
  if rightBranches = 0 then return false
  if op.suffix.length ≠ asUsize spec.childSize.toInt then return false
  branchesAreEmpty spec op.suffix 0 (List.range rightBranches)

/-! ## Non-existence -/

/-- The loops of `ensure_left_most` and `ensure_right_most`, which have the same message: every
step has the padding `pad`, or passes the test `empty`. -/
def ensureOutermost (pad : Padding) (empty : InnerOp → Result Bool) : List InnerOp → Result Unit
  | [] => .ok ()
  | step :: path => do
    if !hasPadding step pad then
      ensure (← empty step) "step not leftmost"
    ensureOutermost pad empty path

def ensureLeftMost (spec : InnerSpec) (path : List InnerOp) : Result Unit := do
  let pad ← getPadding spec 0
  ensureOutermost pad (leftBranchesAreEmpty spec) path

def ensureRightMost (spec : InnerSpec) (path : List InnerOp) : Result Unit := do
  let idx ← subUsize spec.childOrder.length 1
  let pad ← getPadding spec (asI32 idx)
  ensureOutermost pad (rightBranchesAreEmpty spec) path

/-- The steps have the same prefix and the same suffix. -/
def samePadding (left right : InnerOp) : Bool :=
  left.prefix_ == right.prefix_ && left.suffix == right.suffix

/-- The loop of `ensure_left_neighbor` that pops the common tail off two paths, here given as
stacks with the step next to the root on top: the first steps that differ, and what is left. -/
def popCommon (left right : List InnerOp) :
    Result (InnerOp × InnerOp × List InnerOp × List InnerOp) :=
  Ics23.popCommon samePadding .unwrapNone left right

def isLeftStep (spec : InnerSpec) (left right : InnerOp) : Result Bool := do
  let leftIdx ← orderFromPadding spec left
  let rightIdx ← orderFromPadding spec right
  return (← addI32 leftIdx 1) = rightIdx

def ensureLeftNeighbor (spec : InnerSpec) (left right : List InnerOp) : Result Unit := do
  let (topLeft, topRight, left, right) ← popCommon left.reverse right.reverse
  ensure (← isLeftStep spec topLeft topRight) "Not left neighbor at first divergent step"
  ensureRightMost spec left.reverse
  ensureLeftMost spec right.reverse

/-- The closures `key_for_comparison` of `verify_non_existence` and `get_nonexist_proof`: without
a leaf spec both take the default hash operation. -/
def keyForComparison (spec : ProofSpec) (key : Bytes) : Hashing Bytes :=
  if spec.prehashKeyBeforeComparison then
    doHash H ((spec.leafSpec.map fun leaf => hashOpOf leaf.prehashKey).getD .noHash) key
  else pure key

/-- The key order of `verify_non_existence` and `get_nonexist_proof`: `a` is before `b`. -/
def keyBefore (spec : ProofSpec) (a b : Bytes) : Hashing Bool := do
  let a ← keyForComparison H spec a
  let b ← keyForComparison H spec b
  return a < b

/-- The two blocks of `verify_non_existence` on its sides: the side is a valid existence proof,
and its key is on the right side of the given one. -/
def verifySide (side : Option ExistenceProof) (spec : ProofSpec) (root : Bytes)
    (inOrder : Bytes → Hashing Bool) (msg : String) : Hashing Unit :=
  match side with
  | none => pure ()
  | some proof => do
    verifyExistence H P proof spec root proof.key proof.value
    ensure (← inOrder proof.key) msg

/-- The end of `verify_non_existence`: no key fits between the paths of the given sides. -/
def ensureAdjacent (spec : ProofSpec) (left right : Option ExistenceProof) : Result Unit :=
  match spec.innerSpec with
  | some inner =>
    match left, right with
    | some left, none => ensureRightMost inner left.path
    | none, some right => ensureLeftMost inner right.path
    | some left, some right => ensureLeftNeighbor inner left.path right.path
    | none, none => bail "neither left nor right proof defined"
  | none => bail "Inner Spec missing"

def verifyNonExistence (proof : NonExistenceProof) (spec : ProofSpec) (root key : Bytes) :
    Hashing Unit := do
  verifySide H P proof.left spec root (fun left => keyBefore H spec left key)
    "left key isn't before key"
  verifySide H P proof.right spec root (fun right => keyBefore H spec key right)
    "right key isn't after key"
  ensureAdjacent spec proof.left proof.right

end Ics23.Rust
