import Ics23.Rust.Iavl
import Ics23.Rust.Smt
import Ics23.Rust.Tendermint

/-!
# Rust: panics of non-membership

The neighbour check pops the steps that two paths share without testing whether any are left.  What
stands in the way of a panic is that two valid paths to one root part somewhere, if they start from
different leaf messages (`Opening.Valid.eq_of_diverge_eq_none`).

* `verifyNonMembership_returns`: under the IAVL and SMT specs different keys have different leaf
  messages, and verification always returns.
* `tendermint_returns_iff`: under the Tendermint spec one message can be cut into two keys, and
  verification panics for the proofs that put a key between them (`tendermint_panics`).
-/

namespace Ics23.Rust

open Outcome Logged

variable (H : HostFunctionsProvider) (P : Prost)

/-- Whatever the proof, the root and the key are, a boolean is returned, or two of the strings
hashed have the same digest. -/
theorem iavl_smt_verifyNonMembership_returns (proof : CommitmentProof) (root key : Bytes) :
    ((∃ b, (verifyNonMembership H P proof iavlSpec root key).out = .ok b) ∨
      H.ShaCollision {q | q ∈ (verifyNonMembership H P proof iavlSpec root key).log}) ∧
    ((∃ b, (verifyNonMembership H P proof smtSpec root key).out = .ok b) ∨
      H.ShaCollision {q | q ∈ (verifyNonMembership H P proof smtSpec root key).log}) :=
  ⟨(iavlSpec_implements P).verifyNonMembership_returns (iavlRules_readable H) proof root key,
    (smtSpec_implements P).verifyNonMembership_returns (smtRules_readable H) proof root key⟩

/-- The non-existence proof picked for the key has two sides with the same path, both of which pass
`verifyExistence`. -/
def SharesPath (spec : ProofSpec) (proof : CommitmentProof) (root key : Bytes) : Prop :=
  ∃ proof' non left right, decompress proof = .ok proof' ∧
    (getNonexistProof H proof' key spec).out = .ok (some non) ∧
    non.left = some left ∧ non.right = some right ∧ left.path = right.path ∧
    (verifyExistence H P left spec root left.key left.value).out = .ok () ∧
    (verifyExistence H P right spec root right.key right.value).out = .ok ()

variable {H P}

/-- Operations with the same hash are determined by their cuts. -/
theorem path_eq_of_cuts_eq {path path' : List InnerOp} (h : ∀ op ∈ path, op.hash = 1)
    (h' : ∀ op ∈ path', op.hash = 1) (hcuts : path.map InnerOp.cut = path'.map InnerOp.cut) :
    path = path' := by
  have restore {l : List InnerOp} (hl : ∀ op ∈ l, op.hash = 1) :
      (l.map InnerOp.cut).map (fun c => { hash := 1, prefix_ := c.1, suffix := c.2 }) = l := by
    rw [List.map_map]
    conv_rhs => rw [← List.map_id l]
    refine List.map_congr_left fun op hop => ?_
    have hhash := hl op hop
    cases op with
    | mk hash p s =>
      obtain rfl : hash = 1 := hhash
      rfl
  rw [← restore h, hcuts, restore h']

namespace Implements

variable {spec : ProofSpec} {inner : InnerSpec} {R : Rules} (I : Implements P spec inner R)

include I

theorem panics_of_sharesPath {proof : CommitmentProof} {root key : Bytes}
    (h : SharesPath H P spec proof root key) :
    (verifyNonMembership H P proof spec root key).out = .panic .unwrapNone := by
  obtain ⟨proof', non, left, right, hdec, hget, hleft, hright, hpath, hl, hr⟩ := h
  obtain ⟨hcl, -, -, hvl⟩ := I.verifyExistence_yields.1 (yields_univ_iff.2 hl)
  obtain ⟨hcr, -, -, hvr⟩ := I.verifyExistence_yields.1 (yields_univ_iff.2 hr)
  have hrange := I.inRange_yields_true.1 (inRange_of_getNonexistProof (yields_univ_iff.2 hget))
  have hsame : diverge left.opening.cuts.reverse right.opening.cuts.reverse = none := by
    rw [diverge_eq_none_iff]
    left
    show (left.path.map InnerOp.cut).reverse <+: (right.path.map InnerOp.cut).reverse
    rw [hpath]
  have hnon : (verifyNonExistence H P non spec root key).Ends (.panic .unwrapNone) Set.univ :=
    I.verifyNonExistence_ends_panic.2 ⟨rfl, left, hleft, right, hright, hcl, hvl, hcr, hvr,
      (hrange.1 left hleft).1, (hrange.2 right hright).1, fun _ => Set.mem_univ key, hsame⟩
  exact ((verifyNonMembership_ends_panic hdec).2 ⟨non, yields_univ_iff.2 hget, hnon⟩).1

/-- Without a collision, only shared paths make it panic. -/
theorem returns_of_not_sharesPath {proof : CommitmentProof} {root key : Bytes}
    (h : ¬ SharesPath H P spec proof root key) :
    (verifyNonMembership H P proof spec root key).Returns ∨
      H.ShaCollision {q | q ∈ (verifyNonMembership H P proof spec root key).log} := by
  rcases verifyNonMembership_returns_or_panic (H := H) (P := P) proof spec root key
    with hb | ⟨p, hp⟩
  · exact .inl hb
  · refine .inr ?_
    by_contra unique
    apply h
    obtain ⟨proof', hdec⟩ := decompress_eq_ok proof
    obtain ⟨non, hget, hnon⟩ := (verifyNonMembership_ends_panic hdec).1 ⟨hp, fun _ hq => hq⟩
    obtain ⟨-, left, hleft, right, hright, hcl, hvl, hcr, hvr, -, -, -, hdiv⟩ :=
      I.verifyNonExistence_ends_panic.1 hnon
    have hcuts := (hvl.eq_of_diverge_eq_none (H.injOn_sha unique) hvr hdiv).1
    exact ⟨proof', non, left, right, hdec, hget.1, hleft, hright,
      path_eq_of_cuts_eq hcl.path hcr.path hcuts,
      (I.verifyExistence_yields.2 ⟨hcl, rfl, rfl, hvl⟩).1,
      (I.verifyExistence_yields.2 ⟨hcr, rfl, rfl, hvr⟩).1⟩

end Implements

variable (H P)

/-- Verification under the Tendermint spec returns exactly if the picked proof does not share a
path between two valid sides, but for runs in which two strings collide. -/
theorem tendermint_returns_iff (proof : CommitmentProof) (root key : Bytes) :
    let run := verifyNonMembership H P proof tendermintSpec root key
    ((∃ b, run.out = .ok b) ∨ H.ShaCollision {q | q ∈ run.log}) ↔
      (¬ SharesPath H P tendermintSpec proof root key ∨ H.ShaCollision {q | q ∈ run.log}) := by
  have I := tendermintSpec_implements P
  exact Logged.returns_or_iff (fun h => ⟨_, I.panics_of_sharesPath h⟩) I.returns_of_not_sharesPath

/-- Two readings of one leaf, and a key between them: the paths are both empty, and the first step
is popped off an empty path, although no two strings collide. -/
theorem tendermint_panics :
    let H := HostFunctionsProvider.sha256Only
    let left : ExistenceProof :=
      { key := [1, 0x61], value := [7], leaf := some tendermintLeafSpec, path := [] }
    let run := verifyNonMembership H .leb128
      (.nonexist { key := [2], left := some left, right := some confusedProof }) tendermintSpec
      (tendermintFormat.root H confusedTree) [2]
    run.out = .panic .unwrapNone ∧ ¬ H.ShaCollision {q | q ∈ run.log} := by
  refine HostFunctionsProvider.out_and_not_shaCollision _ ?_
  decide +kernel

end Ics23.Rust
