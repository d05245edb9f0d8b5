import Ics23.Rust.InnerOps
import Ics23.Rust.Padding

/-!
# Inner specs of binary trees

For an inner spec with child order `[0, 1]` and bounds that fit an `i32` (`BinaryInner`), the
machine arithmetic of the padding functions stays in range, and they come down to comparisons of
lengths:

* `orderFromPadding_eq`: an op is a left child, a right child, or fits no branch;
* `leftBranchesAreEmpty_eq`, `rightBranchesAreEmpty_eq`: the only sibling an op can have is compared
  with the empty child;
* `ensureInner_eq_ok`: the conditions on an inner op.

None of these functions panics.
-/

namespace Ics23.Rust

open Outcome

/-- An inner op, as the image it leaves open. -/
def InnerOp.cut (op : InnerOp) : Cut := (op.prefix_, op.suffix)

/-- An inner spec of the given shape, as the functions of the crate see it. -/
abbrev BinaryInner (s : InnerSpec) (w : Slots) : Prop := BinaryShape s w

theorem hasPadding_left_iff {w : Slots} {op : InnerOp} :
    hasPadding op ⟨w.lo, w.hi, w.child⟩ ↔ w.IsLeft op.cut := by
  simp [hasPadding, Slots.IsLeft, InnerOp.cut, and_assoc]

theorem hasPadding_right_iff {w : Slots} {op : InnerOp} :
    hasPadding op ⟨w.child + w.lo, w.child + w.hi, 0⟩ ↔ w.IsRight op.cut := by
  simp [hasPadding, Slots.IsRight, InnerOp.cut, and_assoc]

theorem samePadding_iff {left right : InnerOp} : samePadding left right ↔ left.cut = right.cut := by
  simp [samePadding, InnerOp.cut]

namespace BinaryInner

variable {s : InnerSpec} {w : Slots} (B : BinaryInner s w)

include B

/-! ### Padding -/

theorem asUsize_childSize : asUsize s.childSize.toInt = w.child :=
  Rust.asUsize_childSize B.hasLayout

theorem findBranch_zero : findBranch s 0 = some 0 := by
  rw [findBranch, B.childOrder]
  rfl

theorem getPadding_zero : getPadding s 0 = .ok ⟨w.lo, w.hi, w.child⟩ := by
  have hfits := w.fits
  refine (getPadding_eq_ok B.hasLayout (b := 0) two_pos).2 ⟨?_, ?_⟩
  · show 0 * w.child + w.hi < 2 ^ 31
    omega
  · simp [Slots.layout]

theorem getPadding_one : getPadding s 1 = .ok ⟨w.child + w.lo, w.child + w.hi, 0⟩ := by
  have hfits := w.fits
  refine (getPadding_eq_ok B.hasLayout (b := 1) one_lt_two).2 ⟨?_, ?_⟩
  · show 1 * w.child + w.hi < 2 ^ 31
    omega
  · simp [Slots.layout]

/-- The two branches an op can be in. -/
theorem orderFromPadding_eq (op : InnerOp) :
    orderFromPadding s op =
      if w.IsLeft op.cut then .ok 0
      else if w.IsRight op.cut then .ok 1
      else .err "padding doesn't match any branch" := by
  have hrange : List.range (asI32 s.childOrder.length).toNat = [0, 1] := by
    rw [B.childOrder]
    rfl
  rw [orderFromPadding, hrange]
  simp only [firstBranch, Nat.cast_zero, Nat.cast_one, B.getPadding_zero, B.getPadding_one,
    ok_bind, hasPadding_left_iff, hasPadding_right_iff, pure_eq]

/-- Comparing the only slot in question with the empty child. -/
theorem branchesAreEmpty_eq (bytes : Bytes) {base : ℕ} (h : base + w.child = bytes.length)
    (hb : base < 2 ^ 32) :
    branchesAreEmpty s bytes base [0] = .ok (decide (w.empty = bytes.drop base)) := by
  have := w.fits
  simp only [branchesAreEmpty, Nat.cast_zero, B.findBranch_zero, B.asUsize_childSize,
    B.emptyChild]
  rw [show asUsize (0 : Int32).toInt = 0 from rfl, mulUsize_eq (by omega), ok_bind,
    addUsize_eq (by omega), ok_bind, addUsize_eq (by omega), ok_bind, slice_eq (by omega), ok_bind]
  have hslice :
      (bytes.drop (base + 0 * w.child)).take (base + 0 * w.child + w.child - (base + 0 * w.child)) =
        bytes.drop base := by
    rw [zero_mul, add_zero, List.take_of_length_le (by rw [List.length_drop]; omega)]
  simp only [hslice, ne_eq, ite_not, pure_eq]
  split_ifs with he <;> simp [he]

/-- On the left of a right child stands one sibling; on the left of a left child, none. -/
theorem leftBranchesAreEmpty_eq (op : InnerOp) :
    leftBranchesAreEmpty s op =
      if w.IsLeft op.cut then .ok false
      else if w.IsRight op.cut then
        .ok (decide (w.empty = op.prefix_.drop (op.prefix_.length - w.child)))
      else .err "padding doesn't match any branch" := by
  have hfits := w.fits
  have hlt := w.hi_lt
  have hlo := w.lo_le_hi
  rw [leftBranchesAreEmpty, B.orderFromPadding_eq]
  split_ifs with h0 h1
  · simp only [ok_bind, show asUsize 0 = 0 from rfl]
    simp
  · have h1' : w.child + w.lo ≤ op.prefix_.length ∧ op.prefix_.length ≤ w.child + w.hi ∧
        op.suffix.length = 0 := h1
    simp only [ok_bind, B.asUsize_childSize, show asUsize 1 = 1 from rfl]
    rw [if_neg (by omega), mulUsize_eq (by omega), ok_bind, one_mul, if_neg (by omega),
      show List.range 1 = [0] from rfl, B.branchesAreEmpty_eq _ (by omega) (by omega)]
  · simp only [err_bind]

/-- On the right of a left child stands one sibling; on the right of a right child, none. -/
theorem rightBranchesAreEmpty_eq (op : InnerOp) :
    rightBranchesAreEmpty s op =
      if w.IsLeft op.cut then .ok (decide (w.empty = op.suffix))
      else if w.IsRight op.cut then .ok false
      else .err "padding doesn't match any branch" := by
  have hfits := w.fits
  rw [rightBranchesAreEmpty, B.orderFromPadding_eq, B.childOrder, B.asUsize_childSize]
  simp only [List.length_cons, List.length_nil]
  by_cases h0 : w.IsLeft op.cut
  · have h0' : op.suffix.length = w.child := h0.2.2
    rw [if_pos h0, if_pos h0, ok_bind, show asUsize 0 = 0 from rfl, subUsize_eq (by omega),
      ok_bind, subUsize_eq (by omega), ok_bind, if_neg (by omega), if_neg (by omega),
      show List.range (0 + 1 + 1 - 1 - 0) = [0] from rfl,
      B.branchesAreEmpty_eq _ (by omega) (by omega), List.drop_zero]
  · rw [if_neg h0, if_neg h0]
    by_cases h1 : w.IsRight op.cut
    · rw [if_pos h1, if_pos h1, ok_bind, show asUsize 1 = 1 from rfl, subUsize_eq (by omega),
        ok_bind, subUsize_eq (by omega), ok_bind, if_pos (by omega), pure_eq]
    · rw [if_neg h1, if_neg h1, err_bind]

/-- One op proves the left child and the other the right child. -/
theorem isLeftStep_eq_ok {left right : InnerOp} :
    isLeftStep s left right = .ok true ↔ w.IsLeft left.cut ∧ w.IsRight right.cut := by
  have h01 : addI32 0 1 = .ok 1 := rfl
  have h11 : addI32 1 1 = .ok 2 := rfl
  rw [isLeftStep, B.orderFromPadding_eq, B.orderFromPadding_eq]
  by_cases hl : w.IsLeft left.cut <;> by_cases hr : w.IsLeft right.cut
  · simp [hl, hr, hr.not_isRight, h01]
  · by_cases hr' : w.IsRight right.cut <;> simp [hl, hr, hr', h01]
  · by_cases hl' : w.IsRight left.cut <;> simp [hl, hl', hr, h11]
  · by_cases hl' : w.IsRight left.cut <;> by_cases hr' : w.IsRight right.cut <;>
      simp [hl, hl', hr, hr', h11]

theorem isLeftStep_noPanic (left right : InnerOp) : NoPanic (isLeftStep s left right) := by
  have h01 : addI32 0 1 = .ok 1 := rfl
  have h11 : addI32 1 1 = .ok 2 := rfl
  rw [isLeftStep, B.orderFromPadding_eq, B.orderFromPadding_eq]
  intro p
  split_ifs <;> simp [h01, h11]

/-! ### Inner ops -/

/-- The bounds of a prefix are those of a right child and a left child. -/
theorem admitsPrefix_iff {n : ℕ} : AdmitsPrefix s n ↔ w.lo ≤ n ∧ n ≤ w.hi + w.child := by
  have hfits := w.fits
  have hlo := w.lo_le_hi
  have hc := w.child_le
  have hlt := w.hi_lt
  have hmin : asUsize s.minPrefixLength.toInt = w.lo := by
    rw [B.minPrefixLength, asUsize_natCast (by omega)]
  have hproduct : asI32 (s.childOrder.length - 1) * s.childSize.toInt = w.child := by
    rw [B.childOrder, B.childSize]
    exact one_mul _
  have hmax : maxInnerPrefix s = (w.hi + w.child : ℕ) := by
    rw [maxInnerPrefix, hproduct, B.maxPrefixLength, Nat.cast_add]
  constructor
  · intro h
    have hle := h.le_max
    rw [hmax, asUsize_natCast (by omega)] at hle
    exact ⟨hmin ▸ h.min_le, hle⟩
  · rintro ⟨hle, hge⟩
    refine ⟨?_, ?_, ?_, ?_, ?_, ?_, hmin.trans_le hle, ?_⟩
    · rw [B.childOrder]
      exact two_pos
    · rw [hproduct]
      unfold InI32
      omega
    · rw [hmax]
      unfold InI32
      omega
    · rw [B.childSize]
      omega
    · rw [B.minPrefixLength, B.childSize]
      unfold InI32
      omega
    · rw [B.maxPrefixLength, B.minPrefixLength, B.childSize]
      omega
    · rwa [hmax, asUsize_natCast (by omega)]

theorem ensureInner_eq_ok {spec : ProofSpec} {leafSpec : LeafOp}
    (hl : spec.leafSpec = some leafSpec) (hs : spec.innerSpec = some s) {op : InnerOp} :
    ensureInner op spec = .ok () ↔
      op.hash = s.hash ∧ ¬ leafSpec.prefix_ <+: op.prefix_ ∧ w.lo ≤ op.prefix_.length ∧
        op.prefix_.length ≤ w.hi + w.child ∧ op.suffix.length % w.child = 0 := by
  rw [ensureInner_iff hl hs, B.admitsPrefix_iff, B.asUsize_childSize, and_assoc]

theorem ensureInner_noPanic {spec : ProofSpec} {leafSpec : LeafOp}
    (hl : spec.leafSpec = some leafSpec) (hs : spec.innerSpec = some s) (op : InnerOp) :
    NoPanic (ensureInner op spec) := by
  have hlo := w.lo_le_hi
  have hadmits : AdmitsPrefix s w.lo := B.admitsPrefix_iff.2 ⟨le_rfl, by omega⟩
  exact (ensureInner_noPanic_iff hl hs).2 fun _ _ _ => hadmits.arithmeticFits _

end BinaryInner

end Ics23.Rust
