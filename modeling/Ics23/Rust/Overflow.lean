import Ics23.Rust.Membership
import Ics23.Rust.Preimages

/-!
# Overflow in membership

Membership can be checked under any spec, and `ensure_inner` computes with the numbers of the spec
before it checks them.  `verifyMembership_returns_iff` says when the call returns a boolean: when no
proof is found, when the proof is refused before its first step is measured, or when the arithmetic
stays in the range of its types.
-/

namespace Ics23.Rust

open Outcome Logged

variable {P : Prost}

/-! ## Existence proofs -/

variable {spec : ProofSpec}

theorem ensureDepth_noPanic (depth : ℕ) : NoPanic (ensureDepth spec depth) := by
  unfold ensureDepth
  split_ifs
  · exact noPanic_ensure_bind_iff.2 fun _ => noPanic_ensure _ _
  · exact noPanic_ok ()

/-- Once a step is accepted, the arithmetic fits for all later steps. -/
theorem ensureSteps_noPanic_of_ensureInner {first : InnerOp} (h : ensureInner first spec = .ok ())
    (idx : ℕ) (path : List InnerOp) : NoPanic (ensureSteps P spec idx path) := by
  obtain ⟨⟨leafSpec, hleaf⟩, s, hinner⟩ := specs_of_ensureInner h
  obtain ⟨-, -, hadmits, -⟩ := (ensureInner_iff hleaf hinner).1 h
  induction path generalizing idx with
  | nil => exact noPanic_ok ()
  | cons step path ih =>
    refine (ensureInnerPrefix_noPanic P _ _ _ _).bind fun _ _ => NoPanic.bind ?_ fun _ _ => ih _
    exact (ensureInner_noPanic_iff hleaf hinner).2 fun _ _ _ => hadmits.arithmeticFits _

theorem ensureSteps_noPanic_iff {path : List InnerOp} :
    NoPanic (ensureSteps P spec 0 path) ↔
      ∀ step, path.head? = some step →
        ensureInnerPrefix P step.prefix_ spec 1 step.hash = .ok () →
          NoPanic (ensureInner step spec) := by
  cases path with
  | nil => simp [ensureSteps, noPanic_ok]
  | cons first path =>
    have hrest : ensureInner first spec = .ok () → NoPanic (ensureSteps P spec (0 + 1) path) :=
      fun h => ensureSteps_noPanic_of_ensureInner h _ _
    rw [ensureSteps, noPanic_seq_iff, noPanic_seq_iff, and_iff_left hrest,
      and_iff_right (ensureInnerPrefix_noPanic _ _ _ _ _), Nat.cast_zero, zero_add]
    simp

variable (P) in
/-- The checks of an existence proof come to the arithmetic of `ensure_inner` on its first step. -/
structure ReachesArithmetic (proof : ExistenceProof) (spec : ProofSpec) (s : InnerSpec)
    (step : InnerOp) : Prop where
  innerSpec : spec.innerSpec = some s
  leaf : ∃ leaf leafSpec, proof.leaf = some leaf ∧ spec.leafSpec = some leafSpec ∧
    ensureLeafPrefix P leaf.prefix_ spec = .ok () ∧ ensureLeaf leaf leafSpec = .ok () ∧
    ¬ leafSpec.prefix_ <+: step.prefix_
  depth : ensureDepth spec proof.path.length = .ok ()
  first : proof.path.head? = some step
  header : ensureInnerPrefix P step.prefix_ spec 1 step.hash = .ok ()
  hash : step.hash = s.hash
  min_le : asUsize s.minPrefixLength.toInt ≤ step.prefix_.length

theorem checkExistenceSpec_noPanic_iff {proof : ExistenceProof} :
    NoPanic (checkExistenceSpec P proof spec) ↔
      ∀ s step, ReachesArithmetic P proof spec s step → ArithmeticFits s step.prefix_.length := by
  unfold checkExistenceSpec
  split
  case h_1 leaf leafSpec hleaf hspec =>
    rw [noPanic_seq_iff, noPanic_seq_iff, noPanic_seq_iff, ensureSteps_noPanic_iff,
      and_iff_right (ensureLeafPrefix_noPanic _ _ _), and_iff_right (ensureLeaf_noPanic _ _),
      and_iff_right (ensureDepth_noPanic _)]
    constructor
    · rintro h s step ⟨hinner, ⟨_, _, hleaf', hspec', hpre, hcheck, hnot⟩, hdepth, hfirst, hheader,
        hhash, hmin⟩
      obtain rfl := Option.some.inj (hleaf.symm.trans hleaf')
      obtain rfl := Option.some.inj (hspec.symm.trans hspec')
      have hsafe := h hpre hcheck hdepth step hfirst hheader
      exact (ensureInner_noPanic_iff hspec hinner).1 hsafe hhash hnot hmin
    · intro h hpre hcheck hdepth step hfirst hheader
      cases hinner : spec.innerSpec with
      | none =>
        simp only [ensureInner, hspec, hinner]
        exact noPanic_err _
      | some s =>
        refine (ensureInner_noPanic_iff hspec hinner).2 fun hhash hnot hmin => ?_
        exact h s step ⟨hinner, ⟨leaf, leafSpec, hleaf, hspec, hpre, hcheck, hnot⟩, hdepth, hfirst,
          hheader, hhash, hmin⟩
  case h_2 hnone =>
    refine iff_of_true (noPanic_err _) fun s step h => ?_
    obtain ⟨leaf, leafSpec, hleaf, hspec, -⟩ := h.leaf
    exact absurd hspec (hnone leaf leafSpec hleaf)

/-! ## Membership -/

variable (H : HostFunctionsProvider) (P)

theorem verifyExistence_noPanic_iff {proof : ExistenceProof} {root key value : Bytes} :
    (verifyExistence H P proof spec root key value).NoPanic ↔
      NoPanic (checkExistenceSpec P proof spec) := by
  refine noPanic_liftM_bind_iff fun _ => ?_
  refine (noPanic_liftM (noPanic_ensure _ _)).bind fun _ => ?_
  refine (noPanic_liftM (noPanic_ensure _ _)).bind fun _ => ?_
  exact (calculateExistenceRootForSpec_noPanic H P _ _).bind fun _ =>
    noPanic_liftM (noPanic_ensure _ _)

/-- Membership returns a boolean if and only if the arithmetic of `ensure_inner` on the first step
of the proof that is found, if the checks come to it, stays in the range of its types. -/
theorem verifyMembership_returns_iff (proof : CommitmentProof) (spec : ProofSpec)
    (root key value : Bytes) :
    (∃ b, (verifyMembership H P proof spec root key value).out = .ok b) ↔
      ∀ proof' ex s step, decompress proof = .ok proof' → getExistProof proof' key = some ex →
        ReachesArithmetic P ex spec s step → ArithmeticFits s step.prefix_.length := by
  obtain ⟨found, hdec⟩ := decompress_eq_ok proof
  rw [verifyMembership, withDecompressed_eq hdec]
  cases hget : getExistProof found key with
  | none =>
    refine iff_of_true ⟨false, rfl⟩ fun proof' ex s step hdec' hget' => ?_
    obtain rfl := Outcome.ok.inj (hdec.symm.trans hdec')
    rw [hget] at hget'
    contradiction
  | some ex =>
    have hcheck : (verifyExistence H P ex spec root key value).NoPanic ↔ _ :=
      (verifyExistence_noPanic_iff P H).trans checkExistenceSpec_noPanic_iff
    refine returns_isOk_iff.trans (hcheck.trans ⟨fun h proof' ex' s step hdec' hget' => ?_, ?_⟩)
    · obtain rfl := Outcome.ok.inj (hdec.symm.trans hdec')
      obtain rfl := Option.some.inj (hget.symm.trans hget')
      exact h s step
    · exact fun h s step => h found ex s step hdec hget

/-- The Tendermint spec with other numbers in its inner spec. -/
def specWith (childOrder : List Int32) (childSize minPrefixLength maxPrefixLength : Int32) :
    ProofSpec :=
  { tendermintSpec with
    innerSpec := some
      { tendermintInnerSpec with childOrder, childSize, minPrefixLength, maxPrefixLength } }

/-- A proof with one left child. -/
def oneStep : ExistenceProof where
  key := [1]
  value := [2]
  leaf := some tendermintLeafSpec
  path := [{ hash := 1, prefix_ := [1], suffix := [] }]

/-- No children; children of a size that leaves the range when it is multiplied by their number,
when the greatest prefix is added, or when the smallest prefix is added. -/
theorem verifyMembership_overflows :
    let call := fun spec =>
      (verifyMembership .sha256Only .leb128 (.exist oneStep) spec [] [1] [2]).out
    call (specWith [] 32 1 1) = .panic .overflow ∧
      call (specWith [0, 1, 2] 0x7fffffff 1 1) = .panic .overflow ∧
      call (specWith [0, 1] 1 1 0x7fffffff) = .panic .overflow ∧
      call (specWith [0] 0x7fffffff 1 1) = .panic .overflow := by
  intro call
  refine ⟨?_, ?_, ?_, ?_⟩
  all_goals decide

end Ics23.Rust
