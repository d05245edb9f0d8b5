import Ics23.BinarySpec
import Ics23.Go.Proof

/-!
# Spare bytes behind a slice

A slice expression may take in the bytes behind a slice, up to its capacity.  In the verifier only
the tests for empty branches have such expressions with bounds that they do not compare with the
length.  The spare bytes make no difference to a test that does not panic without them
(`leftBranchesAreEmptyIn_of_noPanic`), and to no test at all if the branches are in order
(`InOrder.ignoresSpare`), as those of binary trees are (`ignoresSpare_of_binaryShape`).
-/

namespace Ics23.Go

open Outcome

variable {spec : InnerSpec} {op : InnerOp} {bytes : Bytes} (spare : Bytes)

/-! ## Tests that do not panic -/

theorem slice_append {i j : ℤ} (h : i ≤ j → j ≤ bytes.length) :
    slice (bytes ++ spare) i j = slice bytes i j := by
  unfold slice
  by_cases hin : 0 ≤ i ∧ i ≤ j
  · have hj := h hin.2
    have hj' : j ≤ (bytes ++ spare).length := by
      rw [List.length_append]
      omega
    rw [if_pos ⟨hin.1, hin.2, hj'⟩, if_pos ⟨hin.1, hin.2, hj⟩,
      List.drop_append_of_le_length (by omega),
      List.take_append_of_le_length (by rw [List.length_drop]; omega)]
  · rw [if_neg fun h' => hin ⟨h'.1, h'.2.1⟩, if_neg fun h' => hin ⟨h'.1, h'.2.1⟩]

theorem slice_append_of_noPanic {i j : ℤ} (h : (slice bytes i j).NoPanic) :
    slice (bytes ++ spare) i j = slice bytes i j := by
  refine slice_append spare fun _ => ?_
  by_contra hout
  exact h .outOfRange (if_neg fun h' => hout h'.2.2)

theorem branchesAreEmpty_append_of_noPanic {base : ℤ} {branches : List ℕ}
    (h : (branchesAreEmpty spec bytes base branches).NoPanic) :
    branchesAreEmpty spec (bytes ++ spare) base branches =
      branchesAreEmpty spec bytes base branches := by
  induction branches with
  | nil => rfl
  | cons i branches ih =>
    unfold branchesAreEmpty at h ⊢
    cases hpos : getPosition spec.childOrder (Int32.ofNat i) with
    | panic q => rfl
    | err msg => rfl
    | ok idx =>
      simp only [hpos, ok_bind] at h ⊢
      rw [slice_append_of_noPanic spare h.of_bind]
      cases hchild : slice bytes _ _ with
      | panic q => rfl
      | err msg => rfl
      | ok child =>
        simp only [hchild, ok_bind] at h ⊢
        split_ifs at h ⊢ with hempty
        · rfl
        · exact ih h

/-- Spare bytes behind a prefix are seen only where there would be a panic without them. -/
theorem leftBranchesAreEmptyIn_of_noPanic (h : (leftBranchesAreEmpty spec op).NoPanic) :
    leftBranchesAreEmptyIn (op.prefix_ ++ spare) spec op = leftBranchesAreEmpty spec op := by
  unfold leftBranchesAreEmpty leftBranchesAreEmptyIn at *
  cases hidx : orderFromPadding spec op with
  | ok idx =>
    simp only [hidx, ok_bind] at h ⊢
    split_ifs at h ⊢ with hfirst hshort
    · rfl
    · rfl
    · exact branchesAreEmpty_append_of_noPanic spare h
  | _ => rfl

/-- Spare bytes behind a suffix are seen only where there would be a panic without them. -/
theorem rightBranchesAreEmptyIn_of_noPanic (h : (rightBranchesAreEmpty spec op).NoPanic) :
    rightBranchesAreEmptyIn (op.suffix.bytes ++ spare) spec op = rightBranchesAreEmpty spec op := by
  unfold rightBranchesAreEmpty rightBranchesAreEmptyIn at *
  cases hidx : orderFromPadding spec op with
  | ok idx =>
    simp only [hidx, ok_bind] at h ⊢
    split_ifs at h ⊢ with hlast hother
    · rfl
    · rfl
    · exact branchesAreEmpty_append_of_noPanic spare h
  | _ => rfl

/-! ## Branches in order -/

/-- Every branch stands at the position of its number. -/
def InOrder (spec : InnerSpec) : Prop :=
  ∀ i (h : i < spec.childOrder.length), spec.childOrder[i].toInt = i

instance : Decidable (InOrder spec) :=
  inferInstanceAs (Decidable (∀ i (h : i < spec.childOrder.length), spec.childOrder[i].toInt = i))

/-- The tests for empty branches do not depend on spare bytes behind the prefix and the suffix. -/
def IgnoresSpare (spec : InnerSpec) : Prop :=
  ∀ (op : InnerOp) (spare : Bytes),
    leftBranchesAreEmptyIn (op.prefix_ ++ spare) spec op = leftBranchesAreEmpty spec op ∧
      rightBranchesAreEmptyIn (op.suffix.bytes ++ spare) spec op = rightBranchesAreEmpty spec op

theorem InOrder.lt (order : InOrder spec) {i : ℕ} (h : i < spec.childOrder.length) :
    i < 2 ^ 31 := by
  have hlt := spec.childOrder[i].toInt_lt
  rw [order i h] at hlt
  omega

theorem InOrder.length_le (order : InOrder spec) : spec.childOrder.length ≤ 2 ^ 31 := by
  by_contra hlong
  exact lt_irrefl _ (order.lt (not_le.1 hlong))

/-- A branch that has a position has it at its number, as far as that fits into 32 bits. -/
theorem InOrder.position_le (order : InOrder spec) {i idx : ℕ}
    (h : getPosition spec.childOrder (Int32.ofNat i) = .ok idx) : idx ≤ i ∧ idx < 2 ^ 31 := by
  unfold getPosition at h
  split_ifs at h
  cases hfind : spec.childOrder.findIdx? (· = Int32.ofNat i) with
  | none => simp [hfind] at h
  | some q =>
    obtain ⟨hq, hbranch, -⟩ := List.findIdx?_eq_some_iff_getElem.1 hfind
    have hlt := order.lt hq
    have hvalue := order q hq
    rw [of_decide_eq_true hbranch] at hvalue
    rw [hfind, Outcome.ok.injEq] at h
    refine h ▸ ⟨?_, hlt⟩
    by_contra hiq
    rw [Int32.toInt_ofNat_of_lt (by omega), Nat.cast_inj] at hvalue
    omega

/-- The bytes that a loop over branches in order looks at end where those of `n` slots do. -/
theorem InOrder.branchesAreEmpty_append (order : InOrder spec) {base : ℤ} {n : ℕ}
    (hin : ∀ i < n, i < 2 ^ 31 → let start := int (base + int (i * spec.childSize.toInt))
      start ≤ int (start + spec.childSize.toInt) →
        int (start + spec.childSize.toInt) ≤ bytes.length) {branches : List ℕ}
    (h : ∀ i ∈ branches, i < n) :
    branchesAreEmpty spec (bytes ++ spare) base branches =
      branchesAreEmpty spec bytes base branches := by
  induction branches with
  | nil => rfl
  | cons i branches ih =>
    rw [List.forall_mem_cons] at h
    unfold branchesAreEmpty
    cases hpos : getPosition spec.childOrder (Int32.ofNat i) with
    | ok idx =>
      obtain ⟨hle, hlt⟩ := order.position_le hpos
      simp only [ok_bind, ih h.2, slice_append spare (hin idx (hle.trans_lt h.1) hlt)]
    | _ => rfl

/-! ### Ends of slots -/

theorem slot_bounds {i n size : ℤ} (hi : 0 ≤ i) (hin : i < n) (hsmall : i < 2 ^ 31)
    (hsize : -2 ^ 31 ≤ size) :
    (0 ≤ size → 0 ≤ i * size ∧ i * size + size ≤ n * size) ∧
      (size < 0 → -2 ^ 62 ≤ i * size ∧ i * size ≤ 0) := by
  refine ⟨fun hpos => ⟨by positivity, ?_⟩, fun hneg => ⟨?_, ?_⟩⟩
  · calc i * size + size = (i + 1) * size := by ring
      _ ≤ n * size := by gcongr; omega
  · calc (-2 ^ 62 : ℤ) = 2 ^ 31 * (-2 ^ 31) := by norm_num
      _ ≤ i * (-2 ^ 31) := by omega
      _ ≤ i * size := by gcongr
  · exact mul_nonpos_of_nonneg_of_nonpos hi hneg.le

/-- A slot that does not end before its start ends in the string. -/
theorem slot_end_le {base offset size length : ℤ} (hbase : 0 ≤ base ∧ base < 2 ^ 63)
    (hsize : -2 ^ 31 ≤ size)
    (hfit : length < 2 ^ 63 → 0 ≤ size → 0 ≤ offset ∧ base + offset + size ≤ length)
    (hneg : size < 0 → -2 ^ 62 ≤ offset ∧ offset ≤ 0) :
    let start := int (base + int offset)
    start ≤ int (start + size) → int (start + size) ≤ length := by
  intro start hle
  have hlt := int_lt (start + size)
  by_contra hout
  have hlength : length < 2 ^ 63 := by omega
  rcases le_or_gt 0 size with hpos | hneg'
  · obtain ⟨h0, h1⟩ := hfit hlength hpos
    have hstart : start = base + offset := by
      show int (base + int offset) = _
      rw [int_eq (x := offset) (by omega), int_eq (by omega)]
    rw [hstart, int_eq (by omega)] at hout
    exact hout h1
  · obtain ⟨h0, h1⟩ := hneg hneg'
    have hstart : start = base + offset := by
      show int (base + int offset) = _
      rw [int_eq (x := offset) (by omega), int_eq (by omega)]
    rw [hstart, int_eq (by omega)] at hle
    omega

/-! ### The tests -/

theorem InOrder.leftBranchesAreEmptyIn_eq (order : InOrder spec) :
    leftBranchesAreEmptyIn (op.prefix_ ++ spare) spec op = leftBranchesAreEmpty spec op := by
  unfold leftBranchesAreEmpty leftBranchesAreEmptyIn
  cases orderFromPadding spec op with
  | ok idx =>
    simp only [ok_bind]
    split_ifs with hfirst hshort
    · rfl
    · rfl
    · refine order.branchesAreEmpty_append spare (fun i hi hsmall => ?_) fun i => List.mem_range.1
      have hidx := idx.toInt_lt
      have hsize := spec.childSize.le_toInt
      obtain ⟨hpos, hneg⟩ := slot_bounds (i := i) (n := idx.toInt) (by omega) (by omega)
        (by omega) hsize
      refine slot_end_le ⟨not_lt.1 hshort, int_lt _⟩ hsize (fun hlength hs => ?_) hneg
      obtain ⟨h0, h1⟩ := hpos hs
      have hmax : idx.toInt * spec.childSize.toInt ≤ 2 ^ 62 := by
        have hsize' := spec.childSize.toInt_lt
        calc idx.toInt * spec.childSize.toInt ≤ 2 ^ 31 * 2 ^ 31 := by gcongr
          _ = 2 ^ 62 := by norm_num
      rw [int_eq (x := idx.toInt * _) (by omega), int_eq (by omega)]
      omega
  | _ => rfl

theorem InOrder.rightBranchesAreEmptyIn_eq (order : InOrder spec) :
    rightBranchesAreEmptyIn (op.suffix.bytes ++ spare) spec op = rightBranchesAreEmpty spec op := by
  unfold rightBranchesAreEmpty rightBranchesAreEmptyIn
  cases orderFromPadding spec op with
  | ok idx =>
    simp only [ok_bind]
    split_ifs with hlast hother
    · rfl
    · rfl
    · refine order.branchesAreEmpty_append spare (fun i hi hsmall => ?_) fun i => List.mem_range.1
      have hlen := order.length_le
      have hidx := idx.le_toInt
      have hsize := spec.childSize.le_toInt
      obtain ⟨hpos, hneg⟩ := slot_bounds (i := i)
        (n := (spec.childOrder.length : ℤ) - 1 - idx.toInt) (by omega) (by omega) (by omega) hsize
      refine slot_end_le (by norm_num) hsize (fun _ hs => ?_) hneg
      obtain ⟨h0, h1⟩ := hpos hs
      have hmax :
          ((spec.childOrder.length : ℤ) - 1 - idx.toInt) * spec.childSize.toInt < 2 ^ 63 := by
        have hsize' := spec.childSize.toInt_lt
        calc ((spec.childOrder.length : ℤ) - 1 - idx.toInt) * spec.childSize.toInt
            ≤ 2 ^ 32 * (2 ^ 31 - 1) := by gcongr <;> omega
          _ < 2 ^ 63 := by norm_num
      rw [ne_eq, not_not] at hother
      rw [hother, int_eq (by omega)]
      omega
  | _ => rfl

theorem InOrder.ignoresSpare (order : InOrder spec) : IgnoresSpare spec :=
  fun _ spare =>
    ⟨order.leftBranchesAreEmptyIn_eq spare, order.rightBranchesAreEmptyIn_eq spare⟩

theorem ignoresSpare_of_binaryShape {w : Slots} (B : BinaryShape spec w) : IgnoresSpare spec := by
  refine InOrder.ignoresSpare fun i hi => ?_
  have hlen : i < 2 := by rwa [B.childOrder] at hi
  simp only [B.childOrder]
  interval_cases i <;> rfl

end Ics23.Go
