import Ics23.Go.Padding

/-!
# Inner specs of binary trees in the Go module

For an inner spec with child order `[0, 1]` (`BinaryShape`), no `int` wraps around, no slice is out
of range and the neighbour checks decide what `Slots` says about cuts (`isLeftMost_eq_ok`,
`isRightMost_eq_ok`, `isLeftNeighbor_eq_ok`).  Two things can panic: taking the common tail off two
paths of which one is a tail of the other, and placing the steps where the paths part, if one of
them fits no branch (`isLeftNeighbor_noPanic_iff`).
-/

namespace Ics23.Go

open Outcome

/-- An inner op, as the image it leaves open. -/
def InnerOp.cut (op : InnerOp) : Cut := (op.prefix_, op.suffix.bytes)

theorem sameStep_iff {left right : InnerOp} : sameStep left right ↔ left.cut = right.cut := by
  simp [sameStep, InnerOp.cut]

theorem hasPadding_iff {op : InnerOp} {minPrefix maxPrefix suffix : ℕ} :
    hasPadding op ⟨minPrefix, maxPrefix, suffix⟩ ↔
      minPrefix ≤ op.cut.1.length ∧ op.cut.1.length ≤ maxPrefix ∧ op.cut.2.length = suffix := by
  simp only [hasPadding, InnerOp.cut]
  split_ifs with hmin hmax
  · simp only [false_iff]
    omega
  · simp only [false_iff]
    omega
  · rw [beq_iff_eq]
    omega

theorem hasPadding_left_iff {w : Slots} {op : InnerOp} :
    hasPadding op ⟨w.lo, w.hi, w.child⟩ ↔ w.IsLeft op.cut := hasPadding_iff

theorem hasPadding_right_iff {w : Slots} {op : InnerOp} :
    hasPadding op ⟨(w.child + w.lo : ℕ), (w.child + w.hi : ℕ), 0⟩ ↔ w.IsRight op.cut :=
  hasPadding_iff

theorem isOutermost_eq_ok {pad : Padding} {empty : InnerOp → Result Bool} {path : List InnerOp} :
    isOutermost pad empty path = .ok true ↔
      ∀ op ∈ path, hasPadding op pad ∨ empty op = .ok true := by
  induction path with
  | nil => simp [isOutermost]
  | cons step path ih =>
    rw [List.forall_mem_cons, ← ih, isOutermost]
    by_cases hpad : hasPadding step pad
    · simp [hpad]
    · simp only [hpad, Bool.false_eq_true, if_false, false_or, bind_eq_ok]
      constructor
      · rintro ⟨b, hb, h⟩
        cases b with
        | true => exact ⟨hb, h⟩
        | false => simp at h
      · rintro ⟨hb, h⟩
        exact ⟨true, hb, h⟩

theorem isOutermost_noPanic {pad : Padding} {empty : InnerOp → Result Bool} {path : List InnerOp}
    (h : ∀ op ∈ path, hasPadding op pad ∨ NoPanic (empty op)) :
    NoPanic (isOutermost pad empty path) := by
  induction path with
  | nil => exact noPanic_ok true
  | cons step path ih =>
    rw [List.forall_mem_cons] at h
    rw [isOutermost]
    split_ifs with hpad
    · exact ih h.2
    · refine (h.1.resolve_left hpad).bind fun b _ => ?_
      cases b with
      | true => exact ih h.2
      | false => exact noPanic_ok false

/-- The loop finds where the cuts of two paths part, and panics if one runs out before that. -/
theorem popCommon_spec (left right : List InnerOp) :
    (∃ a b l r, popCommon left right = .ok (a, b, l, r) ∧
      diverge (left.map InnerOp.cut) (right.map InnerOp.cut) =
        some (a.cut, b.cut, l.map InnerOp.cut, r.map InnerOp.cut)) ∨
    (popCommon left right = .panic .outOfRange ∧
      diverge (left.map InnerOp.cut) (right.map InnerOp.cut) = none) :=
  Ics23.popCommon_spec sameStep (fun _ _ => sameStep_iff) Panic.outOfRange left right

section Binary

variable {s : InnerSpec} {w : Slots} (B : BinaryShape s w)

include B

/-! ### Padding -/

theorem getPosition_zero : getPosition s.childOrder 0 = .ok 0 :=
  getPosition_eq B.hasLayout (0 : Fin 2)

theorem getPadding_zero : getPadding s 0 = .ok ⟨w.lo, w.hi, w.child⟩ := by
  refine (getPadding_eq B.hasLayout (0 : Fin 2)).trans ?_
  simp [paddingAt, Slots.layout]

theorem getPadding_one : getPadding s 1 = .ok ⟨(w.child + w.lo : ℕ), (w.child + w.hi : ℕ), 0⟩ := by
  refine (getPadding_eq B.hasLayout (1 : Fin 2)).trans ?_
  simp [paddingAt, Slots.layout]

/-- The two branches an op can be in. -/
theorem orderFromPadding_eq (op : InnerOp) :
    orderFromPadding s op =
      if w.IsLeft op.cut then .ok 0
      else if w.IsRight op.cut then .ok 1
      else .err "cannot find any valid spacing for this node" := by
  have hrange : List.range (Int32.ofNat s.childOrder.length).toInt.toNat = [0, 1] := by
    rw [B.childOrder]
    decide
  rw [orderFromPadding, hrange]
  simp only [firstBranch, show Int32.ofNat 0 = 0 from rfl, show Int32.ofNat 1 = 1 from rfl,
    getPadding_zero B, getPadding_one B, ok_bind, hasPadding_left_iff, hasPadding_right_iff,
    pure_eq]

/-- Comparing the only slot in question with the empty child. -/
theorem branchesAreEmpty_eq (bytes : Bytes) {base : ℕ} (h : base + w.child = bytes.length)
    (hb : base < 2 ^ 32) :
    branchesAreEmpty s bytes base [0] = .ok (decide (w.empty = bytes.drop base)) := by
  have hfits := w.fits
  simp only [branchesAreEmpty, show Int32.ofNat 0 = 0 from rfl, getPosition_zero B, ok_bind,
    B.emptyChild, B.childSize, Nat.cast_zero, zero_mul]
  rw [int_eq (x := 0) (by omega), add_zero, int_eq (x := base) (by omega), int_eq (by omega)]
  have hslice : slice bytes base (base + w.child) = .ok (bytes.drop base) := by
    rw [slice, if_pos (by omega), Int.toNat_natCast, add_sub_cancel_left, Int.toNat_natCast,
      List.take_of_length_le (by rw [List.length_drop]; omega)]
  rw [hslice, ok_bind]
  split_ifs with he
  · simpa using he
  · simpa using he

/-- On the left of a right child stands one sibling; on the left of a left child, none. -/
theorem leftBranchesAreEmpty_eq (op : InnerOp) :
    leftBranchesAreEmpty s op =
      if w.IsLeft op.cut then .ok false
      else if w.IsRight op.cut then
        .ok (decide (w.empty = op.cut.1.drop (op.cut.1.length - w.child)))
      else .err "cannot find any valid spacing for this node" := by
  have hfits := w.fits
  have hlt := w.hi_lt
  rw [leftBranchesAreEmpty, leftBranchesAreEmptyIn, orderFromPadding_eq B]
  split_ifs with h0 h1
  · simp only [ok_bind, show (0 : Int32).toInt = 0 from rfl, if_true, pure_eq]
  · have h1' : w.child + w.lo ≤ op.prefix_.length ∧ op.prefix_.length ≤ w.child + w.hi ∧
        op.cut.2.length = 0 := h1
    have hbase : (op.prefix_.length : ℤ) - w.child = (op.prefix_.length - w.child : ℕ) := by
      omega
    simp only [ok_bind, show (1 : Int32).toInt = 1 from rfl, B.childSize, one_mul]
    rw [if_neg (by omega), int_eq (x := w.child) (by omega), hbase, int_eq (by omega),
      if_neg (by omega), show List.range (1 : ℤ).toNat = [0] from rfl,
      branchesAreEmpty_eq B _ (by omega) (by omega)]
    rfl
  · rw [err_bind]

/-- On the right of a left child stands one sibling; on the right of a right child, none. -/
theorem rightBranchesAreEmpty_eq (op : InnerOp) :
    rightBranchesAreEmpty s op =
      if w.IsLeft op.cut then .ok (decide (w.empty = op.cut.2))
      else if w.IsRight op.cut then .ok false
      else .err "cannot find any valid spacing for this node" := by
  have hfits := w.fits
  rw [rightBranchesAreEmpty, rightBranchesAreEmptyIn, orderFromPadding_eq B, B.childOrder,
    B.childSize]
  split_ifs with h0 h1
  · have h0' : op.suffix.bytes.length = w.child := h0.2.2
    have hone : ((([0, 1] : List Int32).length : ℤ) - 1 - (0 : Int32).toInt) = 1 := by decide
    simp only [ok_bind, hone, one_mul]
    rw [if_neg (by omega), int_eq (by omega), if_neg (by omega),
      show List.range (1 : ℤ).toNat = [0] from rfl]
    have hslot : branchesAreEmpty s op.suffix.bytes (0 : ℕ) [0] =
        .ok (decide (w.empty = op.suffix.bytes.drop 0)) :=
      branchesAreEmpty_eq B _ (by omega) (by omega)
    rw [List.drop_zero] at hslot
    exact hslot
  · have hzero : ((([0, 1] : List Int32).length : ℤ) - 1 - (1 : Int32).toInt) = 0 := by decide
    simp only [ok_bind, hzero, if_true, pure_eq]
  · rw [err_bind]

/-! ### Outermost paths -/

theorem isLeftMost_eq_ok {path : List InnerOp} :
    isLeftMost s path = .ok true ↔ w.LeftMost (path.map InnerOp.cut) := by
  rw [isLeftMost, getPadding_zero B, ok_bind, isOutermost_eq_ok, Slots.LeftMost,
    List.forall_mem_map]
  refine forall₂_congr fun op _ => ?_
  rw [hasPadding_left_iff, leftBranchesAreEmpty_eq B]
  by_cases hl : w.IsLeft op.cut
  · simp [hl]
  · by_cases hr : w.IsRight op.cut <;> simp [hl, hr]

theorem isLeftMost_noPanic (path : List InnerOp) : NoPanic (isLeftMost s path) := by
  rw [isLeftMost, getPadding_zero B, ok_bind]
  refine isOutermost_noPanic fun op _ => .inr ?_
  rw [leftBranchesAreEmpty_eq B]
  split_ifs
  exacts [noPanic_ok _, noPanic_ok _, noPanic_err _]

theorem isRightMost_eq (path : List InnerOp) :
    isRightMost s path = isOutermost ⟨(w.child + w.lo : ℕ), (w.child + w.hi : ℕ), 0⟩
      (rightBranchesAreEmpty s) path := by
  have hlast : Int32.ofInt ((s.childOrder.length : ℤ) - 1) = 1 := by
    rw [B.childOrder]
    decide
  rw [isRightMost, hlast, getPadding_one B, ok_bind]

theorem isRightMost_eq_ok {path : List InnerOp} :
    isRightMost s path = .ok true ↔ w.RightMost (path.map InnerOp.cut) := by
  rw [isRightMost_eq B, isOutermost_eq_ok, Slots.RightMost, List.forall_mem_map]
  refine forall₂_congr fun op _ => ?_
  rw [hasPadding_right_iff, rightBranchesAreEmpty_eq B]
  by_cases hl : w.IsLeft op.cut
  · simp [hl, hl.not_isRight]
  · by_cases hr : w.IsRight op.cut <;> simp [hl, hr]

theorem isRightMost_noPanic (path : List InnerOp) : NoPanic (isRightMost s path) := by
  rw [isRightMost_eq B]
  refine isOutermost_noPanic fun op _ => .inr ?_
  rw [rightBranchesAreEmpty_eq B]
  split_ifs
  exacts [noPanic_ok _, noPanic_ok _, noPanic_err _]

/-! ### Neighbours -/

theorem orderOrPanic_eq (op : InnerOp) :
    orderOrPanic s op =
      if w.IsLeft op.cut then .ok 0
      else if w.IsRight op.cut then .ok 1
      else .panic (.raised "cannot find any valid spacing for this node") := by
  rw [orderOrPanic, orderFromPadding_eq B]
  split_ifs <;> rfl

/-- One op proves the left child and the other the right child. -/
theorem isLeftStep_eq_ok {left right : InnerOp} :
    isLeftStep s left right = .ok true ↔ w.IsLeft left.cut ∧ w.IsRight right.cut := by
  rw [isLeftStep, orderOrPanic_eq B, orderOrPanic_eq B]
  by_cases hl : w.IsLeft left.cut
  · by_cases hr : w.IsLeft right.cut
    · simp [hl, hr, hr.not_isRight]
    · by_cases hr' : w.IsRight right.cut <;> simp [hl, hr, hr']
  · by_cases hl' : w.IsRight left.cut
    · by_cases hr : w.IsLeft right.cut
      · simp [hl, hl', hr]
      · by_cases hr' : w.IsRight right.cut <;> simp [hl, hl', hr, hr']
    · simp [hl, hl']

/-- The comparison panics unless both ops prove some child. -/
theorem isLeftStep_noPanic_iff {left right : InnerOp} :
    NoPanic (isLeftStep s left right) ↔ w.Placed left.cut ∧ w.Placed right.cut := by
  rw [isLeftStep, orderOrPanic_eq B, orderOrPanic_eq B]
  unfold Slots.Placed NoPanic
  by_cases hl : w.IsLeft left.cut <;> by_cases hl' : w.IsRight left.cut <;>
    by_cases hr : w.IsLeft right.cut <;> by_cases hr' : w.IsRight right.cut <;>
      simp [hl, hl', hr, hr']

theorem isLeftNeighbor_eq_ok {left right : List InnerOp} :
    isLeftNeighbor (some s) left right = .ok true ↔
      w.LeftNeighbor (left.map InnerOp.cut) (right.map InnerOp.cut) := by
  unfold isLeftNeighbor Slots.LeftNeighbor
  rcases popCommon_spec left.reverse right.reverse with ⟨a, b, l, r, hpop, hdiv⟩ | ⟨hpop, hdiv⟩
  all_goals rw [List.map_reverse, List.map_reverse] at hdiv; rw [hpop, hdiv]
  · simp only [ok_bind, deref]
    constructor
    · intro h
      obtain ⟨step, hstep, h⟩ := bind_eq_ok.1 h
      cases step with
      | false => simp at h
      | true =>
        obtain ⟨last, hlast, h⟩ := bind_eq_ok.1 h
        cases last with
        | false => simp at h
        | true =>
          obtain ⟨ha, hb⟩ := (isLeftStep_eq_ok B).1 hstep
          rw [isRightMost_eq_ok B, List.map_reverse, Slots.rightMost_reverse] at hlast
          have hfirst := (isLeftMost_eq_ok B).1 h
          rw [List.map_reverse, Slots.leftMost_reverse] at hfirst
          exact ⟨_, _, _, _, rfl, ha, hb, hlast, hfirst⟩
    · rintro ⟨_, _, _, _, h, ha, hb, hlast, hfirst⟩
      simp only [Option.some.injEq, Prod.mk.injEq] at h
      obtain ⟨rfl, rfl, rfl, rfl⟩ := h
      rw [← Slots.rightMost_reverse, ← List.map_reverse, ← isRightMost_eq_ok B] at hlast
      rw [← Slots.leftMost_reverse, ← List.map_reverse, ← isLeftMost_eq_ok B] at hfirst
      simp [(isLeftStep_eq_ok B).2 ⟨ha, hb⟩, hlast, hfirst]
  · simp

/-- The neighbour check panics unless the paths part at steps that both prove some child. -/
theorem isLeftNeighbor_noPanic_iff {left right : List InnerOp} :
    NoPanic (isLeftNeighbor (some s) left right) ↔
      w.PartPlaced (left.map InnerOp.cut) (right.map InnerOp.cut) := by
  unfold isLeftNeighbor Slots.PartPlaced
  rcases popCommon_spec left.reverse right.reverse with ⟨a, b, l, r, hpop, hdiv⟩ | ⟨hpop, hdiv⟩
  all_goals rw [List.map_reverse, List.map_reverse] at hdiv; rw [hpop, hdiv]
  · simp only [ok_bind, deref, Option.some.injEq, Prod.mk.injEq]
    constructor
    · intro h
      have hstep : NoPanic (isLeftStep s a b) := fun p hp => h p (bind_eq_panic.2 (.inl hp))
      obtain ⟨ha, hb⟩ := (isLeftStep_noPanic_iff B).1 hstep
      exact ⟨_, _, _, _, ⟨rfl, rfl, rfl, rfl⟩, ha, hb⟩
    · rintro ⟨_, _, _, _, ⟨rfl, rfl, rfl, rfl⟩, ha, hb⟩
      refine ((isLeftStep_noPanic_iff B).2 ⟨ha, hb⟩).bind fun step _ => ?_
      cases step with
      | false => exact noPanic_ok false
      | true =>
        refine (isRightMost_noPanic B l.reverse).bind fun last _ => ?_
        cases last with
        | false => exact noPanic_ok false
        | true => exact isLeftMost_noPanic B r.reverse
  · simp [NoPanic]

/-! ### Inner ops -/

theorem InnerOp.checkAgainstSpec_eq_ok {spec : ProofSpec} {leafSpec : LeafOp}
    (hl : spec.leafSpec = some leafSpec) (hs : spec.innerSpec = some s) {op : InnerOp} {b : ℤ} :
    op.checkAgainstSpec spec b = .ok () ↔
      op.hash = s.hash ∧
      (specEquals spec iavlSpec → validateIavlOps op.prefix_ op.hash b = .ok ()) ∧
      (specEquals spec tendermintSpec → validateTendermintOps op = .ok ()) ∧
      ¬ leafSpec.prefix_ <+: op.cut.1 ∧ w.lo ≤ op.cut.1.length ∧
      op.cut.1.length ≤ w.hi + w.child ∧ op.cut.2.length % w.child = 0 := by
  have hfits := w.fits
  have hc := w.child_le
  have hlo := w.lo_le_hi
  have hlt := w.hi_lt
  have hmax : int (s.maxPrefixLength.toInt +
      int (((s.childOrder.length : ℤ) - 1) * s.childSize.toInt)) = w.hi + w.child := by
    rw [B.childOrder, B.childSize, B.maxPrefixLength]
    simp only [List.length_cons, List.length_nil]
    rw [int_eq (x := _ * _) (by push_cast; omega), int_eq (by push_cast; omega)]
    push_cast
    omega
  have hpos : ¬ s.childSize ≤ 0 := by
    rw [Int32.le_iff_toInt_le, B.childSize]
    simp
    omega
  have hbound : ¬ s.maxPrefixLength ≥ s.minPrefixLength + s.childSize := by
    rw [ge_iff_le, Int32.le_iff_toInt_le, Int32.toInt_add, B.childSize, B.maxPrefixLength,
      B.minPrefixLength, Int.bmod_eq_of_le (by omega) (by omega)]
    omega
  have hrest : remInt op.suffix.bytes.length s.childSize.toInt =
      .ok ((op.suffix.bytes.length % w.child : ℕ) : ℤ) := by
    rw [B.childSize, remInt, if_neg (by omega), Int.tmod_eq_emod_of_nonneg (by omega),
      Int.natCast_mod]
  unfold InnerOp.checkAgainstSpec
  rw [hs, hl]
  simp only [seq_eq_ok, checkIf_eq_ok, ensure_eq_ok, hmax, hpos, hbound, hrest, ok_bind,
    B.minPrefixLength, hasPrefix_iff, not_false_eq_true, true_and]
  refine and_congr_right fun _ => and_congr_right fun _ => and_congr_right fun _ =>
    and_congr_right fun _ => and_congr ?_ (and_congr ?_ ?_)
  · show ¬ (op.prefix_.length : ℤ) < w.lo ↔ w.lo ≤ op.prefix_.length
    omega
  · show ¬ (op.prefix_.length : ℤ) > w.hi + w.child ↔ op.prefix_.length ≤ w.hi + w.child
    omega
  · exact Int.natCast_eq_zero

end Binary

end Ics23.Go
