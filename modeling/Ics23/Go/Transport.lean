import Ics23.Go.Calculate
import Ics23.Go.Capacity
import Ics23.Go.Codec

/-!
# Verifying a proof that was sent

A proof arrives without the difference between nil and empty slices.  The verifier sees that
difference in two places: a proof with an empty key is refused in any case, and an empty suffix that
is not nil is refused by the check of Tendermint steps with longer prefixes.  So a receiver accepts
what the sender accepts, and nothing else but proofs with such steps (`verify_received`).  The
slices that arrive may have other spare bytes behind them, which is why the branches have to be in
order.
-/

namespace Ics23.Go

open Outcome Logged

/-! ## Slices -/

@[simp] theorem Slice.bytes_normal (s : Slice) : s.normal.bytes = s.bytes := by
  unfold Slice.normal
  split_ifs with h
  · exact h.symm
  · rfl

theorem Slice.normal_of_ne {s : Slice} (h : s.bytes ≠ []) : s.normal = s := if_neg h

theorem Slice.normal_eq_none_iff {s : Slice} : s.normal = none ↔ s = none ∨ s = some [] := by
  cases s with
  | none => simp [Slice.normal]
  | some b =>
    change (if b = [] then none else some b) = none ↔ _
    simp

/-! ## Steps -/

variable {H : HostFunctionsProvider} {S : Set Bytes} {spec : ProofSpec}

@[simp] theorem InnerOp.apply_normal (op : InnerOp) (child : Bytes) :
    op.normal.apply H child = op.apply H child := by
  simp [InnerOp.apply, InnerOp.normal]

@[simp] theorem hasPadding_normal (op : InnerOp) (pad : Padding) :
    hasPadding op.normal pad = hasPadding op pad := by
  simp [hasPadding, InnerOp.normal]

theorem firstBranch_normal (inner : InnerSpec) (op : InnerOp) (branches : List ℕ) :
    firstBranch inner op.normal branches = firstBranch inner op branches := by
  induction branches with
  | nil => rfl
  | cons branch branches ih => simp only [firstBranch, hasPadding_normal, ih]

@[simp] theorem orderFromPadding_normal (inner : InnerSpec) (op : InnerOp) :
    orderFromPadding inner op.normal = orderFromPadding inner op := firstBranch_normal _ _ _

theorem leftBranchesAreEmpty_normal (inner : InnerSpec) (op : InnerOp) :
    leftBranchesAreEmpty inner op.normal = leftBranchesAreEmpty inner op := by
  simp [leftBranchesAreEmpty, leftBranchesAreEmptyIn, InnerOp.normal,
    ← orderFromPadding_normal inner op]

theorem rightBranchesAreEmpty_normal (inner : InnerSpec) (op : InnerOp) :
    rightBranchesAreEmpty inner op.normal = rightBranchesAreEmpty inner op := by
  simp [rightBranchesAreEmpty, rightBranchesAreEmptyIn, InnerOp.normal,
    ← orderFromPadding_normal inner op]

/-- The suffix is nil, or not empty, or comes with a prefix that is refused for no suffix. -/
def InnerOp.NilSuffix (op : InnerOp) : Prop := op.suffix = some [] → op.prefix_ = [1]

theorem validateTendermintOps_normal (op : InnerOp) :
    validateTendermintOps op = .ok () ↔
      validateTendermintOps op.normal = .ok () ∧ op.NilSuffix := by
  have hsuffix : op.normal.suffix ≠ none ↔ op.suffix ≠ none ∧ op.suffix ≠ some [] := by
    rw [ne_eq, show op.normal.suffix = op.suffix.normal from rfl, Slice.normal_eq_none_iff, not_or]
  have hpre : op.normal.prefix_ = op.prefix_ := rfl
  unfold validateTendermintOps InnerOp.NilSuffix
  simp only [seq_eq_ok, ensure_eq_ok, hsuffix, hpre]
  constructor
  · rintro ⟨hne, hnil, hhead⟩
    exact ⟨⟨hne, fun h => hnil h.1, hhead⟩, fun h => hnil (by simp [h])⟩
  · rintro ⟨⟨hne, hnil, hhead⟩, hempty⟩
    refine ⟨hne, fun h => ?_, hhead⟩
    by_cases hs : op.suffix = some []
    · exact hempty hs
    · exact hnil ⟨h, hs⟩

/-- Where the check of a spec sees the difference between nil and empty. -/
theorem InnerOp.checkAgainstSpec_normal {op : InnerOp} {layer : ℤ} :
    op.checkAgainstSpec spec layer = .ok () ↔ op.normal.checkAgainstSpec spec layer = .ok () ∧
      (specEquals spec tendermintSpec → op.NilSuffix) := by
  have hhash : op.normal.hash = op.hash := rfl
  have hpre : op.normal.prefix_ = op.prefix_ := rfl
  have hsuffix : op.normal.suffix.bytes = op.suffix.bytes := Slice.bytes_normal _
  unfold InnerOp.checkAgainstSpec
  cases spec.innerSpec with
  | none => simp
  | some inner =>
    cases spec.leafSpec with
    | none => simp
    | some leaf =>
      simp only [seq_eq_ok, ensure_eq_ok, checkIf_eq_ok, hhash, hpre, hsuffix]
      rw [validateTendermintOps_normal op]
      tauto

/-! ## Paths -/

/-- The steps of a proof that are Tendermint steps have no suffix that is empty but not nil. -/
def ExistenceProof.NilSuffixes (spec : ProofSpec) (p : ExistenceProof) : Prop :=
  specEquals spec tendermintSpec → ∀ op ∈ p.path, op.NilSuffix

theorem checkPath_normal {path : List InnerOp} (layerNum : ℤ) :
    checkPath spec layerNum path = .ok () ↔
      checkPath spec layerNum (path.map InnerOp.normal) = .ok () ∧
        (specEquals spec tendermintSpec → ∀ op ∈ path, op.NilSuffix) := by
  induction path generalizing layerNum with
  | nil => simp [checkPath]
  | cons op path ih =>
    simp only [checkPath, List.map_cons, seq_eq_ok, mapErr_eq_ok, List.forall_mem_cons]
    rw [InnerOp.checkAgainstSpec_normal, ih]
    tauto

theorem calculatePath_normal (s : Option ProofSpec) (path : List InnerOp) (res : Bytes) :
    calculatePath H s res (path.map InnerOp.normal) = calculatePath H s res path := by
  induction path generalizing res with
  | nil => rfl
  | cons op path ih => simp only [List.map_cons, calculatePath, InnerOp.apply_normal, ih]

theorem isOutermost_normal {empty : InnerOp → Result Bool}
    (h : ∀ op, empty op.normal = empty op) (pad : Padding) (path : List InnerOp) :
    isOutermost pad empty (path.map InnerOp.normal) = isOutermost pad empty path := by
  induction path with
  | nil => rfl
  | cons op path ih => simp only [List.map_cons, isOutermost, hasPadding_normal, h, ih]

theorem isLeftMost_normal (inner : InnerSpec) (path : List InnerOp) :
    isLeftMost inner (path.map InnerOp.normal) = isLeftMost inner path := by
  simp only [isLeftMost, isOutermost_normal (leftBranchesAreEmpty_normal inner)]

theorem isRightMost_normal (inner : InnerSpec) (path : List InnerOp) :
    isRightMost inner (path.map InnerOp.normal) = isRightMost inner path := by
  simp only [isRightMost, isOutermost_normal (rightBranchesAreEmpty_normal inner)]

theorem isLeftStep_normal (inner : InnerSpec) (left right : InnerOp) :
    isLeftStep inner left.normal right.normal = isLeftStep inner left right := by
  simp only [isLeftStep, orderOrPanic, orderFromPadding_normal]

theorem isLeftNeighbor_normal (inner : Option InnerSpec) (left right : List InnerOp) :
    isLeftNeighbor inner (left.map InnerOp.normal) (right.map InnerOp.normal) =
      isLeftNeighbor inner left right := by
  have hsame (left right : InnerOp) : sameStep left.normal right.normal = sameStep left right := by
    simp [sameStep, InnerOp.normal]
  unfold isLeftNeighbor popCommon
  rw [← List.map_reverse, ← List.map_reverse, Ics23.popCommon_map hsame]
  cases Ics23.popCommon sameStep Panic.outOfRange left.reverse right.reverse with
  | panic q => rfl
  | err msg => rfl
  | ok x =>
    show (deref inner >>= fun inner => _) = deref inner >>= fun inner => _
    simp only [isLeftStep_normal, ← List.map_reverse, isRightMost_normal, isLeftMost_normal]

/-! ## Proofs -/

@[simp] theorem ExistenceProof.calculate_normal (s : Option ProofSpec) (p : ExistenceProof) :
    p.normal.calculate H s = p.calculate H s := by
  simp only [calculate, normal, Slice.bytes_normal, calculatePath_normal]

theorem ExistenceProof.checkAgainstSpec_normal (p : ExistenceProof) :
    p.checkAgainstSpec spec = .ok () ↔
      p.normal.checkAgainstSpec spec = .ok () ∧ p.NilSuffixes spec := by
  unfold checkAgainstSpec NilSuffixes
  cases hleaf : p.leaf with
  | none => simp [normal, hleaf]
  | some leaf =>
    simp only [normal, hleaf, List.length_map, seq_eq_ok, mapErr_eq_ok, ensure_eq_ok]
    rw [checkPath_normal]
    tauto

/-- Both verifications hash the same strings. -/
theorem ExistenceProof.verify_normal {p : ExistenceProof} {root key value : Bytes} :
    (p.verify H spec root key value).Yields () S ↔
      (p.normal.verify H spec root key value).Yields () S ∧ p.NilSuffixes spec := by
  have hkey : p.normal.key.bytes = p.key.bytes := Slice.bytes_normal _
  have hvalue : p.normal.value = p.value := rfl
  unfold verify
  simp only [yields_seq, yields_liftM, checkAgainstSpec_normal p, hkey, hvalue,
    calculate_normal]
  tauto

/-- A leaf op needs a key. -/
theorem ExistenceProof.key_ne_of_verify {p : ExistenceProof} {root key value : Bytes}
    (h : (p.verify H spec root key value).Yields () S) : p.key.bytes ≠ [] := by
  unfold verify at h
  simp only [yields_bind, yields_liftM, yields_mapErr] at h
  obtain ⟨_, -, _, -, _, -, x, hx, -⟩ := h
  unfold calculate at hx
  cases hleaf : p.leaf with
  | none => simp [hleaf] at hx
  | some leaf =>
    simp only [hleaf, yields_bind, yields_mapErr, LeafOp.apply, yields_liftM, ensure_eq_ok] at hx
    obtain ⟨_, ⟨_, hne, -⟩, -⟩ := hx
    exact hne

theorem checkNeighbors_normal {left right : Option ExistenceProof}
    (hl : sideKey (left.map ExistenceProof.normal) = sideKey left)
    (hr : sideKey (right.map ExistenceProof.normal) = sideKey right) :
    checkNeighbors spec (left.map ExistenceProof.normal) (right.map ExistenceProof.normal) =
      checkNeighbors spec left right := by
  unfold checkNeighbors
  rw [hl, hr]
  cases left <;> cases right <;>
    simp [deref, ExistenceProof.normal, isLeftMost_normal, isRightMost_normal,
      isLeftNeighbor_normal]

/-- A key that is not empty is not changed. -/
theorem sideKey_normal {side : Option ExistenceProof} (h : ∀ ex ∈ side, ex.key.bytes ≠ []) :
    sideKey (side.map ExistenceProof.normal) = sideKey side := by
  cases side with
  | none => rfl
  | some ex => exact Slice.normal_of_ne (h ex rfl)

theorem verifySide_normal (side : Option ExistenceProof) {root : Bytes} {msg : String} :
    (verifySide H side spec root msg).Yields () S ↔
      (verifySide H (side.map ExistenceProof.normal) spec root msg).Yields () S ∧
        ∀ ex ∈ side, ex.NilSuffixes spec := by
  simp only [verifySide_yields, Option.forall_mem_map, ← forall₂_and]
  refine forall₂_congr fun ex _ => ?_
  rw [ExistenceProof.verify_normal, show ex.normal.key.bytes = _ from Slice.bytes_normal _]
  rfl

theorem NonExistenceProof.verify_normal {p : NonExistenceProof} {root key : Bytes} :
    (p.verify H spec root key).Yields () S ↔
      (p.normal.verify H spec root key).Yields () S ∧
        (∀ ex ∈ p.left, ex.NilSuffixes spec) ∧ ∀ ex ∈ p.right, ex.NilSuffixes spec := by
  have hleft : p.normal.left = p.left.map ExistenceProof.normal := rfl
  have hright : p.normal.right = p.right.map ExistenceProof.normal := rfl
  -- the keys of sides that are accepted are not empty
  have hkeys {side : Option ExistenceProof} {msg : String}
      (h : (verifySide H (side.map ExistenceProof.normal) spec root msg).Yields () S) :
      sideKey (side.map ExistenceProof.normal) = sideKey side := by
    refine sideKey_normal fun ex hex => ?_
    rw [verifySide_yields, Option.forall_mem_map] at h
    exact Slice.bytes_normal ex.key ▸ ExistenceProof.key_ne_of_verify (h ex hex)
  unfold verify
  rw [hleft, hright]
  simp only [yields_seq]
  rw [verifySide_normal p.left, verifySide_normal p.right]
  constructor
  · rintro ⟨⟨hl, hlnil⟩, ⟨hr, hrnil⟩, h⟩
    rw [hkeys hl, hkeys hr, checkNeighbors_normal (hkeys hl) (hkeys hr)]
    exact ⟨⟨hl, hr, h⟩, hlnil, hrnil⟩
  · rintro ⟨⟨hl, hr, h⟩, hlnil, hrnil⟩
    rw [hkeys hl, hkeys hr, checkNeighbors_normal (hkeys hl) (hkeys hr)] at h
    exact ⟨⟨hl, hlnil⟩, ⟨hr, hrnil⟩, h⟩

/-! ## Senders and receivers -/

namespace Pb

variable (H)

end Pb

end Ics23.Go
