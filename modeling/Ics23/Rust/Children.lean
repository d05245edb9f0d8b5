import Ics23.Rust.Lengths

/-!
# Children and their slots

The loop that computes a root looks at the size of every hash that an inner step returns, but not at
the size of the leaf hash it begins with.  So all children fit their slots if and only if the leaf
hash does (`childrenFit_iff`).
-/

namespace Ics23.Rust

open Outcome Logged

variable (H : HostFunctionsProvider) (P : Prost)

/-! ## Children -/

/-- The strings that the loop passes to `apply_inner` as children. -/
def pathChildren (spec : Option ProofSpec) : Bytes → List InnerOp → List Bytes
  | _, [] => []
  | hash, step :: path =>
    hash :: match (calculateStep H spec hash step).out with
      | .ok hash => pathChildren spec hash path
      | _ => []

/-- All strings that are passed to `apply_inner` as children while the root is computed. -/
def children (proof : ExistenceProof) (spec : Option ProofSpec) : List Bytes :=
  match proof.leaf with
  | some leafNode =>
    match (applyLeaf H P leafNode proof.key proof.value).out with
    | .ok hash => pathChildren H spec hash proof.path
    | _ => []
  | none => []

variable {H P} {spec : ProofSpec} {inner : InnerSpec}

theorem calculatePath_cons_eq_ok {spec : Option ProofSpec} {hash root : Bytes} {step : InnerOp}
    {path : List InnerOp} :
    (calculatePath H spec hash (step :: path)).out = .ok root ↔
      ∃ hash', (calculateStep H spec hash step).out = .ok hash' ∧
        (calculatePath H spec hash' path).out = .ok root := by
  simp only [calculatePath, ← yields_univ_iff, yields_bind]

/-- What a step returns fits a slot. -/
theorem length_le_of_calculateStep (hinner : spec.innerSpec = some inner)
    (hsize : 32 ≤ inner.childSize.toInt) {hash hash' : Bytes} {step : InnerOp}
    (h : (calculateStep H (some spec) hash step).out = .ok hash') :
    (hash'.length : ℤ) ≤ inner.childSize.toInt := by
  simp only [calculateStep, ← yields_univ_iff, yields_bind, yields_pure, yields_liftM] at h
  obtain ⟨_, -, _, h, rfl⟩ := h
  have hcast := asUsize_of_nonneg (x := inner.childSize) (by omega)
  simp only [ensureChildSize, Option.bind_some, hinner] at h
  split_ifs at h with hlarge
  omega

/-- In a run that returns, all children fit if and only if the first one does. -/
theorem pathChildren_fit_iff (hinner : spec.innerSpec = some inner)
    (hsize : 32 ≤ inner.childSize.toInt) {hash root : Bytes} {path : List InnerOp}
    (h : (calculatePath H (some spec) hash path).out = .ok root) :
    (∀ child ∈ pathChildren H (some spec) hash path,
        (child.length : ℤ) ≤ inner.childSize.toInt) ↔
      path = [] ∨ (hash.length : ℤ) ≤ inner.childSize.toInt := by
  induction path generalizing hash with
  | nil => simp [pathChildren]
  | cons step path ih =>
    obtain ⟨hash', hstep, hpath⟩ := calculatePath_cons_eq_ok.1 h
    have hfits := length_le_of_calculateStep hinner hsize hstep
    have hrest := (ih hpath).2 (.inr hfits)
    rw [pathChildren, hstep, List.forall_mem_cons, and_iff_left hrest]
    simp

/-! ## The leaf hash -/

/-- The length of leaf data after preparation. -/
def preparedLength (hash : HashOp) (length : LengthOp) (n : ℕ) : ℕ :=
  (lengthPrefix length ((digestLength hash).getD n)).length + (digestLength hash).getD n

/-- The length of a leaf hash: that of a digest, or that of the whole preimage. -/
def leafHashLength (leaf : LeafOp) (key value : ℕ) : ℕ :=
  (digestLength (hashOpOf leaf.hash)).getD (leaf.prefix_.length +
    preparedLength (hashOpOf leaf.prehashKey) (lengthOpOf leaf.length) key +
    preparedLength (hashOpOf leaf.prehashValue) (lengthOpOf leaf.length) value)

theorem length_of_doHash {hash : HashOp} {data x : Bytes}
    (h : (doHash H hash data).out = .ok x) :
    x.length = (digestLength hash).getD data.length := by
  obtain ⟨y, hy, hlen⟩ := doHash_length (H := H) hash data
  rw [hy, Outcome.ok.injEq] at h
  rw [← h, hlen]

theorem length_of_prepareLeafData {hash : HashOp} {length : LengthOp} {data x : Bytes}
    (h : (prepareLeafData H P hash length data).out = .ok x) :
    x.length = preparedLength hash length data.length := by
  obtain ⟨y, hy, hlen⟩ := doHash_length (H := H) hash data
  obtain ⟨-, -, rfl⟩ := (prepareLeafData_eq_ok hy).1 h
  rw [List.length_append, preparedLength, hlen]

theorem length_of_applyLeaf {leaf : LeafOp} {key value hash : Bytes}
    (h : (applyLeaf H P leaf key value).out = .ok hash) :
    hash.length = leafHashLength leaf key.length value.length := by
  obtain ⟨_, ⟨prekey, preval, hkey, hvalue, rfl⟩, hhash⟩ := applyLeaf_iff_leafImage.1 h
  rw [length_of_doHash hhash, leafHashLength, List.length_append, List.length_append,
    length_of_prepareLeafData hkey, length_of_prepareLeafData hvalue]

/-! ## Accepted proofs -/

/-- The children of an accepted proof all fit their slots if and only if there are none, or the leaf
hash fits. -/
theorem childrenFit_iff {proof : ExistenceProof} {root key value : Bytes}
    (hinner : spec.innerSpec = some inner) (hsize : 32 ≤ inner.childSize.toInt)
    (accepted : (verifyExistence H P proof spec root key value).out = .ok ()) :
    (∀ child ∈ children H P proof (some spec), (child.length : ℤ) ≤ inner.childSize.toInt) ↔
      proof.path = [] ∨ ∀ leaf, proof.leaf = some leaf →
        (leafHashLength leaf proof.key.length proof.value.length : ℤ) ≤
          inner.childSize.toInt := by
  simp only [verifyExistence, calculateExistenceRootForSpec, ← yields_univ_iff, yields_seq,
    yields_bind (β := Unit), yields_liftM] at accepted
  obtain ⟨_, -, _, -, _, -, root', ⟨-, -, h⟩, -⟩ := accepted
  cases hleaf : proof.leaf with
  | none => simp [hleaf] at h
  | some leaf =>
    rw [hleaf, yields_bind] at h
    obtain ⟨hash, hhash, hpath⟩ := h
    rw [yields_univ_iff] at hhash hpath
    simp only [children, hleaf, hhash, Option.some.injEq, forall_eq',
      pathChildren_fit_iff hinner hsize hpath, length_of_applyLeaf hhash]

/-- The Tendermint spec with leaves that are not hashed. -/
def unhashedSpec : ProofSpec :=
  { tendermintSpec with
    leafSpec := some
      { hash := 0, prehashKey := 0, prehashValue := 0, length := 0, prefix_ := [0] } }

/-- A left child with a key and a value of `n` bytes each, next to an empty one. -/
def unhashedProof (n : ℕ) : ExistenceProof where
  key := List.replicate n 2
  value := List.replicate n 3
  leaf := unhashedSpec.leafSpec
  path := [{ hash := 1, prefix_ := [1], suffix := List.replicate 32 0 }]

/-- Key and value of 20 bytes make a leaf of 41 bytes, which is accepted in a slot of 32. -/
theorem not_childrenFit_unhashedProof :
    let H := HostFunctionsProvider.sha256Only
    let proof := unhashedProof 20
    let leaf := [0] ++ proof.key ++ proof.value
    (verifyExistence H .leb128 proof unhashedSpec
      (H.sha ([1] ++ leaf ++ List.replicate 32 0)) proof.key proof.value).out = .ok () ∧
    ¬ ∀ child ∈ children H .leb128 proof (some unhashedSpec),
      (child.length : ℤ) ≤ tendermintInnerSpec.childSize.toInt := by
  constructor <;> decide +kernel

/-- Key and value of 8 bytes make a leaf of 17 bytes. -/
theorem unhashedProof_childrenFit :
    let H := HostFunctionsProvider.sha256Only
    ∀ child ∈ children H .leb128 (unhashedProof 8) (some unhashedSpec),
      (child.length : ℤ) ≤ tendermintInnerSpec.childSize.toInt := by
  intro H
  let proof := unhashedProof 8
  let leaf := [0] ++ proof.key ++ proof.value
  have accepted : (verifyExistence H .leb128 proof unhashedSpec
      (H.sha ([1] ++ leaf ++ List.replicate 32 0)) proof.key proof.value).out = .ok () := by
    decide +kernel
  refine (childrenFit_iff rfl (by decide) accepted).2 (.inr fun leaf hleaf => ?_)
  obtain rfl := Option.some.inj hleaf
  decide

end Ics23.Rust
