import Ics23.Rust.Verify

/-!
# Membership and non-membership

The verification functions of `api.rs`, with the decompression of `compress.rs` they start with.
-/

namespace Ics23.Rust

/-! ## Decompression -/

def isCompressed : CommitmentProof → Bool
  | .compressed _ => true
  | _ => false

/-- A path with an index outside the table is replaced by the empty path. -/
def decompressExist (exist : CompressedExistenceProof) (lookup : List InnerOp) :
    ExistenceProof where
  key := exist.key
  value := exist.value
  leaf := exist.leaf
  path := (exist.path.mapM fun x => lookup[asUsize x.toInt]?).getD []

def decompressEntry (lookup : List InnerOp) : CompressedBatchEntry → BatchEntry
  | .exist ex => .exist (decompressExist ex lookup)
  | .nonexist non =>
    .nonexist
      { key := non.key
        left := non.left.map (decompressExist · lookup)
        right := non.right.map (decompressExist · lookup) }
  | .none => .none

/-- No entry can fail, so that neither can the batch. -/
def decompressBatch (proof : CompressedBatchProof) : Result CommitmentProof :=
  .ok (.batch { entries := proof.entries.map (decompressEntry proof.lookupInners) })

def decompress (proof : CommitmentProof) : Result CommitmentProof :=
  match proof with
  | .compressed compressed => decompressBatch compressed
  | proof => .ok proof

/-! ## Finding the entry -/

variable (H : HostFunctionsProvider) (P : Prost)

/-- The loop of `get_exist_proof` over the entries of a batch. -/
def findExist (key : Bytes) : List BatchEntry → Option ExistenceProof
  | [] => none
  | .exist ex :: entries => if ex.key = key then some ex else findExist key entries
  | _ :: entries => findExist key entries

def getExistProof (proof : CommitmentProof) (key : Bytes) : Option ExistenceProof :=
  match proof with
  | .exist ex => some ex
  | .batch batch => findExist key batch.entries
  | _ => none

/-- `iter().all(..)` on an optional side: true if there is none. -/
def sideInOrder (side : Option ExistenceProof) (inOrder : Bytes → Hashing Bool) : Hashing Bool :=
  match side with
  | none => pure true
  | some x => inOrder x.key

/-- The key lies between the keys of the two sides. -/
def inRange (spec : ProofSpec) (non : NonExistenceProof) (key : Bytes) : Hashing Bool := do
  if ← sideInOrder non.left (fun left => keyBefore H spec left key) then
    sideInOrder non.right (fun right => keyBefore H spec key right)
  else return false

/-- The loop of `get_nonexist_proof` over the entries of a batch. -/
def findNonexist (spec : ProofSpec) (key : Bytes) :
    List BatchEntry → Hashing (Option NonExistenceProof)
  | [] => pure none
  | .nonexist non :: entries => do
    if ← inRange H spec non key then return some non else findNonexist spec key entries
  | _ :: entries => findNonexist spec key entries

def getNonexistProof (proof : CommitmentProof) (key : Bytes) (spec : ProofSpec) :
    Hashing (Option NonExistenceProof) :=
  match proof with
  | .nonexist non => do
    if ← inRange H spec non key then return some non else return none
  | .batch batch => findNonexist H spec key batch.entries
  | _ => pure none

/-! ## Verification -/

/-- The block all verification functions begin with. -/
def withDecompressed (proof : CommitmentProof) (verify : CommitmentProof → Hashing Bool) :
    Hashing Bool :=
  if isCompressed proof then
    match decompress proof with
    | .ok proof => verify proof
    | .err _ => pure false
    | .panic p => (.panic p : Result Bool)
  else verify proof

/-- Decompression never fails, so that verification always goes on with some proof. -/
theorem decompress_eq_ok (proof : CommitmentProof) : ∃ proof', decompress proof = .ok proof' := by
  cases proof <;> exact ⟨_, rfl⟩

theorem withDecompressed_eq {proof proof' : CommitmentProof} (h : decompress proof = .ok proof')
    (verify : CommitmentProof → Hashing Bool) :
    withDecompressed proof verify = verify proof' := by
  unfold withDecompressed
  split_ifs with hc
  · rw [h]
  · cases proof with
    | compressed c => simp [isCompressed] at hc
    | _ => rw [Outcome.ok.inj h]

def verifyMembership (proof : CommitmentProof) (spec : ProofSpec) (root key value : Bytes) :
    Hashing Bool :=
  withDecompressed proof fun proof =>
    match getExistProof proof key with
    | some ex => (verifyExistence H P ex spec root key value).isOk
    | none => pure false

def verifyNonMembership (proof : CommitmentProof) (spec : ProofSpec) (root key : Bytes) :
    Hashing Bool :=
  withDecompressed proof fun proof => do
    match ← getNonexistProof H proof key spec with
    | some non => (verifyNonExistence H P non spec root key).isOk
    | none => return false

/-- `items` lists the entries of the map, in the order of their keys. -/
def verifyBatchMembership (proof : CommitmentProof) (spec : ProofSpec) (root : Bytes)
    (items : List (Bytes × Bytes)) : Hashing Bool :=
  withDecompressed proof fun proof =>
    items.allM fun (key, value) => verifyMembership H P proof spec root key value

def verifyBatchNonMembership (proof : CommitmentProof) (spec : ProofSpec) (root : Bytes)
    (keys : List Bytes) : Hashing Bool :=
  withDecompressed proof fun proof =>
    keys.allM fun key => verifyNonMembership H P proof spec root key

end Ics23.Rust
