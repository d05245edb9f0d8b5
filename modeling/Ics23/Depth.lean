import Ics23.Go.Proof
import Ics23.Rust.Verify

/-!
# Depth limits

A spec bounds the number of inner steps of an existence proof (`DepthAllowed`).  The Go module
enforces the bounds (`Go.ExistenceProof.checkAgainstSpec_iff_depthAllowed`).  The Rust crate looks
at both of them only if there is a lower one, and then takes an upper bound of zero as it stands;
`Rust.depthAllowed_enforced_iff` says when this makes no difference.
-/

namespace Ics23

open Outcome

/-- The greatest number of inner steps. -/
def ProofSpec.depthLimit (spec : ProofSpec) : ℤ :=
  if spec.maxDepth = 0 then 128 else spec.maxDepth.toInt

/-- The number of inner steps is within the limits of the spec: a lower limit of zero is none, and
an upper limit of zero stands for 128. -/
def DepthAllowed (spec : ProofSpec) (depth : ℕ) : Prop :=
  (spec.minDepth = 0 ∨ spec.minDepth.toInt ≤ depth) ∧ depth ≤ spec.depthLimit

instance (spec : ProofSpec) (depth : ℕ) : Decidable (DepthAllowed spec depth) :=
  inferInstanceAs (Decidable (_ ∧ _))

/-! ## The Go module -/

namespace Go

/-- The leaf and all inner steps pass their own checks. -/
structure OpsPass (p : ExistenceProof) (spec : ProofSpec) : Prop where
  leaf : ∃ leaf, p.leaf = some leaf ∧ LeafOp.checkAgainstSpec leaf spec = .ok ()
  steps : ∀ (i : ℕ) (inner : InnerOp), p.path[i]? = some inner →
    inner.checkAgainstSpec spec (i + 1 : ℕ) = .ok ()

theorem checkPath_iff_forall {spec : ProofSpec} {layerNum : ℕ} {path : List InnerOp} :
    checkPath spec layerNum path = .ok () ↔
      ∀ (i : ℕ) (inner : InnerOp), path[i]? = some inner →
        inner.checkAgainstSpec spec (layerNum + i : ℕ) = .ok () := by
  induction path generalizing layerNum with
  | nil => simp [checkPath]
  | cons op path ih =>
    have hnext : (layerNum : ℤ) + 1 = (layerNum + 1 : ℕ) := by push_cast; rfl
    rw [checkPath, seq_eq_ok, mapErr_eq_ok, hnext, ih]
    constructor
    · rintro ⟨hop, hpath⟩ i inner hi
      cases i with
      | zero => exact Option.some.inj hi ▸ hop
      | succ i =>
        rw [← Nat.add_assoc, Nat.add_right_comm]
        exact hpath i inner hi
    · intro h
      refine ⟨h 0 op rfl, fun i inner hi => ?_⟩
      rw [Nat.add_right_comm]
      exact h (i + 1) inner hi

/-- The Go module enforces the limits. -/
theorem ExistenceProof.checkAgainstSpec_iff_depthAllowed {p : ExistenceProof} {spec : ProofSpec}
    (ops : OpsPass p spec) :
    p.checkAgainstSpec spec = .ok () ↔ DepthAllowed spec p.path.length := by
  obtain ⟨leaf, hleaf, hcheck⟩ := ops.leaf
  have hpath : checkPath spec (1 : ℕ) p.path = .ok () := by
    refine checkPath_iff_forall.2 fun i inner hi => ?_
    rw [Nat.add_comm]
    exact ops.steps i inner hi
  rw [Nat.cast_one] at hpath
  have hmin : (0 < spec.minDepth ∧ (p.path.length : ℤ) < spec.minDepth.toInt) ↔
      ¬ (spec.minDepth = 0 ∨ spec.minDepth.toInt ≤ p.path.length) := by
    rw [Int32.lt_iff_toInt_lt, ← Int32.toInt_inj, Int32.toInt_zero]
    omega
  have hmax : (if spec.maxDepth = 0 then (128 : Int32) else spec.maxDepth).toInt =
      spec.depthLimit := by
    unfold ProofSpec.depthLimit
    split_ifs <;> rfl
  simp only [checkAgainstSpec, hleaf, hcheck, seq_eq_ok, mapErr_eq_ok, ensure_eq_ok, hpath, hmin,
    hmax, DepthAllowed, not_not, not_lt, true_and, and_true]

end Go

/-! ## The Rust crate -/

namespace Rust

variable (P : Prost)

/-- The leaf and all inner steps pass their own checks. -/
structure OpsPass (proof : ExistenceProof) (spec : ProofSpec) : Prop where
  leaf : ∃ leaf leafSpec, proof.leaf = some leaf ∧ spec.leafSpec = some leafSpec ∧
    ensureLeafPrefix P leaf.prefix_ spec = .ok () ∧ ensureLeaf leaf leafSpec = .ok ()
  steps : ∀ (i : ℕ) (step : InnerOp), proof.path[i]? = some step →
    ensureInnerPrefix P step.prefix_ spec ((i : ℤ) + 1) step.hash = .ok () ∧
      ensureInner step spec = .ok ()

theorem ensureSteps_iff_forall {spec : ProofSpec} {idx : ℕ} {path : List InnerOp} :
    ensureSteps P spec idx path = .ok () ↔
      ∀ (i : ℕ) (step : InnerOp), path[i]? = some step →
        ensureInnerPrefix P step.prefix_ spec ((idx + i : ℕ) + 1) step.hash = .ok () ∧
          ensureInner step spec = .ok () := by
  induction path generalizing idx with
  | nil => simp [ensureSteps]
  | cons op path ih =>
    rw [ensureSteps, seq_eq_ok, seq_eq_ok, ih, ← and_assoc]
    constructor
    · rintro ⟨hop, hpath⟩ i step hi
      cases i with
      | zero => exact Option.some.inj hi ▸ hop
      | succ i =>
        rw [← Nat.add_assoc, Nat.add_right_comm]
        exact hpath i step hi
    · intro h
      refine ⟨h 0 op rfl, fun i step hi => ?_⟩
      rw [Nat.add_right_comm]
      exact h (i + 1) step hi

/-- What is checked once the steps pass. -/
theorem checkExistenceSpec_iff_ensureDepth {proof : ExistenceProof} {spec : ProofSpec}
    (ops : OpsPass P proof spec) :
    checkExistenceSpec P proof spec = .ok () ↔ ensureDepth spec proof.path.length = .ok () := by
  obtain ⟨leaf, leafSpec, hleaf, hspec, hpre, hcheck⟩ := ops.leaf
  have hsteps : ensureSteps P spec 0 proof.path = .ok () := by
    refine (ensureSteps_iff_forall P).2 fun i step hi => ?_
    rw [Nat.zero_add]
    exact ops.steps i step hi
  simp only [checkExistenceSpec, hleaf, hspec, hpre, hcheck, hsteps, seq_eq_ok, true_and,
    and_true]

/-- The limits make no difference: without a lower limit the depth does not exceed the upper one;
with a lower limit there is also an upper one, or the depth is too small or exceeds the default. -/
def LimitsAgree (spec : ProofSpec) (depth : ℕ) : Prop :=
  if spec.minDepth = 0 then depth ≤ spec.depthLimit
  else spec.maxDepth = 0 → depth < spec.minDepth.toInt ∨ 128 < depth

/-- The Rust crate enforces the limits if and only if they make no difference. -/
theorem depthAllowed_enforced_iff {proof : ExistenceProof} {spec : ProofSpec}
    (min : 0 ≤ spec.minDepth.toInt) (max : 0 ≤ spec.maxDepth.toInt) (ops : OpsPass P proof spec) :
    (checkExistenceSpec P proof spec = .ok () ↔ DepthAllowed spec proof.path.length) ↔
      LimitsAgree spec proof.path.length := by
  rw [checkExistenceSpec_iff_ensureDepth P ops]
  have hmin := asUsize_of_nonneg min
  have hmax := asUsize_of_nonneg max
  unfold ensureDepth DepthAllowed LimitsAgree ProofSpec.depthLimit
  by_cases hlower : spec.minDepth = 0
  · simp [hlower]
  · have hpos : spec.minDepth.toInt ≠ 0 := fun h => hlower (Int32.toInt_inj.1 h)
    simp only [ne_eq, hlower, not_false_eq_true, if_true, if_false, seq_eq_ok, ensure_eq_ok,
      false_or]
    by_cases hupper : spec.maxDepth = 0
    · rw [hupper, Int32.toInt_zero] at hmax
      simp only [hupper, if_true, forall_const, Int32.toInt_zero]
      omega
    · simp only [hupper, if_false, false_implies, iff_true]
      omega

/-- The Tendermint spec with other limits. -/
def limited (minDepth maxDepth : Int32) : ProofSpec := { tendermintSpec with minDepth, maxDepth }

/-- A proof with a path of left children. -/
def deepProof (depth : ℕ) : ExistenceProof where
  key := [1]
  value := [1]
  leaf := some tendermintLeafSpec
  path := List.replicate depth { hash := 1, prefix_ := [1], suffix := List.replicate 32 0 }

theorem deepProof_opsPass (minDepth maxDepth : Int32) (depth : ℕ) :
    OpsPass P (deepProof depth) (limited minDepth maxDepth) where
  leaf := ⟨_, _, rfl, rfl, rfl, by decide⟩
  steps i step hi := by
    obtain rfl := List.eq_of_mem_replicate (List.mem_of_getElem? hi)
    -- the limits play no part in the check of a step
    have hstep : ensureInner { hash := 1, prefix_ := [1], suffix := List.replicate 32 0 }
        tendermintSpec = .ok () := by decide
    exact ⟨rfl, hstep⟩

/-- Two steps are accepted although only one is allowed. -/
theorem deepProof_depthAllowed_enforced_iff :
    (checkExistenceSpec .leb128 (deepProof 2) (limited 0 1) = .ok () ↔
      DepthAllowed (limited 0 1) 2) ↔ LimitsAgree (limited 0 1) 2 :=
  depthAllowed_enforced_iff .leb128 (by decide) (by decide) (deepProof_opsPass .leb128 0 1 2)

/-- Without a lower limit the upper one is not enforced; with a lower limit only, everything is
rejected. -/
theorem limits_not_enforced :
    (OpsPass .leb128 (deepProof 2) (limited 0 1) ∧
      checkExistenceSpec .leb128 (deepProof 2) (limited 0 1) = .ok () ∧
      ¬ DepthAllowed (limited 0 1) 2) ∧
    (OpsPass .leb128 (deepProof 1) (limited 1 0) ∧
      checkExistenceSpec .leb128 (deepProof 1) (limited 1 0) ≠ .ok () ∧
      DepthAllowed (limited 1 0) 1) := by
  refine ⟨⟨deepProof_opsPass _ _ _ _, ?_, ?_⟩, deepProof_opsPass _ _ _ _, ?_, ?_⟩ <;> decide

end Rust

end Ics23
