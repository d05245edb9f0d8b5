import Ics23.Go.Binary

/-!
# Places in nodes of any arity, in the Go module

The module looks up the position of a branch in the child order, and finds the branch of a step
(`orderFromPadding_at`).
-/

namespace Ics23.Go

open Outcome

/-! ### The search for a branch -/

/-- Branches with another padding are passed over. -/
theorem firstBranch_append {s : InnerSpec} {op : InnerOp} {passed branches : List ℕ}
    (h : ∀ b ∈ passed, ∃ pad, getPadding s (Int32.ofNat b) = .ok pad ∧ ¬ hasPadding op pad) :
    firstBranch s op (passed ++ branches) = firstBranch s op branches := by
  induction passed with
  | nil => rfl
  | cons b passed ih =>
    rw [List.forall_mem_cons] at h
    obtain ⟨⟨pad, hpad, hop⟩, h⟩ := h
    rw [List.cons_append, firstBranch, hpad, ok_bind, if_neg hop, ih h]

/-- The one position of the first branch. -/
theorem exists_firstBranch_position {n : ℕ} (σ : Equiv.Perm (Fin n)) (h : 0 < n) :
    ∃ q, ∀ r, (σ r : ℕ) = 0 ↔ r = q := by
  refine ⟨σ.symm ⟨0, h⟩, fun r => ?_⟩
  rw [Equiv.eq_symm_apply, Fin.ext_iff]

section Layout

variable {s : InnerSpec} {w : Layout} {σ : Equiv.Perm (Fin w.arity)} (L : HasLayout s w σ)

include L

omit L in
/-- A step has the padding of a position exactly when it is cut there. -/
theorem hasPadding_position_iff {op : InnerOp} {pl : Place w} (h : op.cut = pl.cut)
    {q : Fin w.arity} : hasPadding op (paddingAt w q) ↔ pl.position = q := by
  rw [← pl.node.around_iff, paddingAt, hasPadding_iff, h]
  constructor
  · rintro ⟨hlo, hhi, hafter⟩
    exact ⟨hlo, hhi, hafter⟩
  · rintro ⟨hlo, hhi, hafter⟩
    exact ⟨hlo, hhi, hafter⟩

/-- The branch of a step is found, unless there are too many branches. -/
theorem orderFromPadding_at {op : InnerOp} {pl : Place w} (h : op.cut = pl.cut) :
    orderFromPadding s op =
      if w.arity < 2 ^ 31 then .ok (Int32.ofNat (σ pl.position))
      else .err "cannot find any valid spacing for this node" := by
  have harity := L.arity_le
  rw [orderFromPadding, L.length_childOrder]
  split_ifs with hlt
  · have hpos := (σ pl.position).isLt
    obtain ⟨rest, hrange⟩ := exists_range_eq hpos
    rw [Int32.toInt_ofNat_of_lt hlt, Int.toNat_natCast, hrange, firstBranch_append, firstBranch,
      getPadding_eq L, ok_bind, if_pos ((hasPadding_position_iff h).2 rfl), pure_eq]
    intro b hb
    have hbp := List.mem_range.1 hb
    have hbq : (σ (σ.symm ⟨b, hbp.trans hpos⟩) : ℕ) = b := by rw [Equiv.apply_symm_apply]
    refine ⟨_, hbq ▸ getPadding_eq L _, fun hop => ?_⟩
    rw [hasPadding_position_iff h] at hop
    rw [hop, hbq] at hbp
    omega
  · rw [show w.arity = 2 ^ 31 by omega]
    rfl

/-! ### Empty branches -/

/-- The loop looks at the slot at the position of a branch, and panics if it is not there. -/
theorem branchesAreEmpty_cons {bytes : Bytes} {base : ℕ} (hbase : base < 2 ^ 62) (q : Fin w.arity)
    (branches : List ℕ) :
    branchesAreEmpty s bytes base ((σ q : ℕ) :: branches) =
      if base + q * w.width + w.width ≤ bytes.length then
        if (bytes.drop (base + q * w.width)).take w.width = s.emptyChild then
          branchesAreEmpty s bytes base branches
        else .ok false
      else .panic .outOfRange := by
  have hmul := L.mul_width_le q.isLt
  rw [Nat.succ_mul] at hmul
  rw [branchesAreEmpty, getPosition_eq L, ok_bind, L.childSize]
  simp (disch := omega) only [← Nat.cast_mul, ← Nat.cast_add, int_natCast, slice]
  by_cases hlen : base + q * w.width + w.width ≤ bytes.length
  · rw [if_pos hlen, if_pos (by omega), ok_bind]
    have hwidth :
        ((base + q * w.width + w.width : ℕ) : ℤ) - (base + q * w.width : ℕ) = w.width := by
      omega
    rw [hwidth, Int.toNat_natCast, Int.toNat_natCast, ite_not, pure_eq]
    simp only [eq_comm]
  · rw [if_neg hlen, if_neg (by omega), panic_bind]

/-- The slots that the loop looks at are all there, and all empty. -/
theorem branchesAreEmpty_eq_ok {bytes : Bytes} {base : ℕ} (hbase : base < 2 ^ 62)
    {branches : List ℕ} (h : ∀ i ∈ branches, i < w.arity) :
    branchesAreEmpty s bytes base branches = .ok true ↔
      ∀ q, (σ q : ℕ) ∈ branches → base + q * w.width + w.width ≤ bytes.length ∧
        (bytes.drop (base + q * w.width)).take w.width = s.emptyChild := by
  induction branches with
  | nil => simp [branchesAreEmpty]
  | cons i branches ih =>
    rw [List.forall_mem_cons] at h
    obtain ⟨q, hq⟩ := σ.surjective ⟨i, h.1⟩
    obtain rfl : (σ q : ℕ) = i := by rw [hq]
    rw [branchesAreEmpty_cons L hbase]
    constructor
    · intro hok r hr
      split_ifs at hok with hlen he
      · rcases List.mem_cons.1 hr with hrq | hr
        · obtain rfl := σ.injective (Fin.ext hrq)
          exact ⟨hlen, he⟩
        · exact (ih h.2).1 hok r hr
      · simp at hok
    · intro hall
      obtain ⟨hlen, he⟩ := hall q List.mem_cons_self
      rw [if_pos hlen, if_pos he]
      exact (ih h.2).2 fun r hr => hall r (List.mem_cons_of_mem _ hr)

/-- The loop does not panic if all slots are there. -/
theorem branchesAreEmpty_noPanic {bytes : Bytes} {base : ℕ} (hbase : base < 2 ^ 62)
    {branches : List ℕ} (h : ∀ i ∈ branches, i < w.arity)
    (hthere : ∀ q, (σ q : ℕ) ∈ branches → base + q * w.width + w.width ≤ bytes.length) :
    NoPanic (branchesAreEmpty s bytes base branches) := by
  induction branches with
  | nil => exact noPanic_ok true
  | cons i branches ih =>
    rw [List.forall_mem_cons] at h
    obtain ⟨q, hq⟩ := σ.surjective ⟨i, h.1⟩
    obtain rfl : (σ q : ℕ) = i := by rw [hq]
    rw [branchesAreEmpty_cons L hbase, if_pos (hthere q List.mem_cons_self)]
    split_ifs
    · exact ih h.2 fun q hq => hthere q (List.mem_cons_of_mem _ hq)
    · exact noPanic_ok false

/-- The first slot that the loop looks at decides, if no slot can hold the empty child. -/
theorem branchesAreEmpty_of_length_ne (bytes : Bytes) {base : ℕ} (hbase : base < 2 ^ 62)
    (hsize : s.emptyChild.length ≠ w.width) (q : Fin w.arity) (branches : List ℕ) :
    branchesAreEmpty s bytes base ((σ q : ℕ) :: branches) =
      if base + q * w.width + w.width ≤ bytes.length then .ok false else .panic .outOfRange := by
  rw [branchesAreEmpty_cons L hbase]
  refine ite_congr rfl (fun hlen => if_neg fun he => hsize ?_) fun _ => rfl
  rw [← he, List.length_take, List.length_drop]
  omega

/-! ### The side of smaller branches -/

theorem base_lt (pl : Place w) (k : ℕ) : (pl.node.before pl.position).length - k < 2 ^ 62 := by
  have hlen := pl.node.length_before pl.position.isLt.le
  have hhead := pl.node.le_hi
  have hhi := L.hi_lt
  have hmul := L.mul_width_le pl.position.isLt.le
  omega

omit L in
/-- A slot of the `k` slots at the end of a string. -/
theorem slot_fits_iff {k q length : ℕ} (h : ¬ length < k * w.width) :
    length - k * w.width + q * w.width + w.width ≤ length ↔ q < k := by
  rw [← w.slot_le_iff]
  omega

theorem leftBranchesAreEmpty_at {op : InnerOp} {pl : Place w} (h : op.cut = pl.cut)
    (hfew : w.arity < 2 ^ 31) (hfirst : (σ pl.position : ℕ) ≠ 0) :
    leftBranchesAreEmpty s op =
      if (pl.node.before pl.position).length < σ pl.position * w.width then .ok false
      else
        branchesAreEmpty s (pl.node.before pl.position)
          ((pl.node.before pl.position).length - σ pl.position * w.width : ℕ)
          (List.range (σ pl.position)) := by
  obtain ⟨hpre, -⟩ := Prod.mk.inj h
  have hb := L.toInt_branch pl.position
  have hmul := L.mul_width_le (σ pl.position).isLt.le
  have hlen := pl.node.length_before pl.position.isLt.le
  have hhead := pl.node.le_hi
  have hhi := L.hi_lt
  have hmul' := L.mul_width_le pl.position.isLt.le
  rw [leftBranchesAreEmpty, leftBranchesAreEmptyIn, orderFromPadding_at L h, if_pos hfew, ok_bind]
  simp only [hb, L.childSize, hpre]
  rw [if_neg (by omega), ← Nat.cast_mul, int_natCast (by omega), int_eq (by omega)]
  by_cases hshort : (pl.node.before pl.position).length < σ pl.position * w.width
  · rw [if_pos (by omega), if_pos hshort, pure_eq]
  · rw [if_neg (by omega), if_neg hshort, Int.toNat_natCast, Nat.cast_sub (not_lt.1 hshort)]

/-- Without a branch number there is no answer, and at the first branch the answer is no. -/
theorem leftBranchesAreEmpty_ne_ok {op : InnerOp} {pl : Place w} (h : op.cut = pl.cut)
    (hout : ¬ (w.arity < 2 ^ 31 ∧ (σ pl.position : ℕ) ≠ 0)) :
    leftBranchesAreEmpty s op ≠ .ok true ∧ NoPanic (leftBranchesAreEmpty s op) := by
  rw [leftBranchesAreEmpty, leftBranchesAreEmptyIn, orderFromPadding_at L h]
  split_ifs with hfew
  · have hfirst : (σ pl.position : ℕ) = 0 := by
      by_contra hne
      exact hout ⟨hfew, hne⟩
    rw [ok_bind, hfirst]
    simp only [show (Int32.ofNat 0).toInt = 0 from rfl, if_true, pure_eq]
    exact ⟨by simp, noPanic_ok false⟩
  · exact ⟨by simp, noPanic_err _⟩

/-- The check looks at the slots at the positions of the smaller branches, counted from as many
slots before the step as there are smaller branches. -/
theorem leftBranchesAreEmpty_eq_ok {op : InnerOp} {pl : Place w} (h : op.cut = pl.cut) :
    leftBranchesAreEmpty s op = .ok true ↔
      (w.arity < 2 ^ 31 ∧ (σ pl.position : ℕ) ≠ 0) ∧
        σ pl.position * w.width ≤ (pl.node.before pl.position).length ∧
        ∀ q, σ q < σ pl.position → (q : ℕ) < σ pl.position ∧
          ((pl.node.before pl.position).drop ((pl.node.before pl.position).length -
            σ pl.position * w.width + q * w.width)).take w.width = s.emptyChild := by
  by_cases hin : w.arity < 2 ^ 31 ∧ (σ pl.position : ℕ) ≠ 0
  · have hbranches : ∀ i ∈ List.range (σ pl.position), i < w.arity := fun i hi =>
      (List.mem_range.1 hi).trans (σ pl.position).isLt
    rw [leftBranchesAreEmpty_at L h hin.1 hin.2, ← not_lt (b := σ pl.position * w.width)]
    split_ifs with hshort
    · simp [hshort]
    · rw [branchesAreEmpty_eq_ok L (base_lt L pl _) hbranches, and_iff_right hin,
        and_iff_right hshort]
      simp only [List.mem_range, Fin.lt_def]
      exact forall₂_congr fun q _ => and_congr_left fun _ => slot_fits_iff hshort
  · simp only [hin, false_and, iff_false]
    exact (leftBranchesAreEmpty_ne_ok L h hin).1

/-- The same in terms of slots, for a step that does not stand before its branch number. -/
theorem leftBranchesAreEmpty_iff_slots {op : InnerOp} {pl : Place w} (h : op.cut = pl.cut)
    (hle : σ pl.position ≤ pl.position) :
    leftBranchesAreEmpty s op = .ok true ↔
      (w.arity < 2 ^ 31 ∧ (σ pl.position : ℕ) ≠ 0) ∧
        ∀ q, σ q < σ pl.position → (q : ℕ) < σ pl.position ∧
          ∀ r : Fin w.arity, (r : ℕ) + σ pl.position = pl.position + q →
            pl.node.slot r = s.emptyChild := by
  have hlen := pl.node.length_before pl.position.isLt.le
  have hmul : σ pl.position * w.width ≤ pl.position * w.width := Nat.mul_le_mul_right _ hle
  rw [leftBranchesAreEmpty_eq_ok L h]
  refine and_congr_right fun _ => ?_
  rw [and_iff_right (show _ ≤ (pl.node.before pl.position).length by omega)]
  refine forall₂_congr fun q _ => and_congr_right fun hq => ?_
  have hle' : (σ pl.position : ℕ) ≤ pl.position := hle
  have hpos := pl.position.isLt
  obtain ⟨slot, hslot⟩ : ∃ r : Fin w.arity, (r : ℕ) + σ pl.position = pl.position + q :=
    ⟨⟨(pl.position : ℕ) + q - σ pl.position, by omega⟩, Nat.sub_add_cancel (by omega)⟩
  have hbase : (pl.node.before pl.position).length - σ pl.position * w.width + q * w.width =
      pl.node.header.length + slot * w.width := by
    have hsum := congrArg (· * w.width) hslot
    simp only [add_mul] at hsum
    omega
  rw [hbase, pl.node.window_before (show (slot : ℕ) < pl.position by omega)]
  have hr (r : Fin w.arity) : (r : ℕ) + σ pl.position = pl.position + q ↔ r = slot := by
    rw [Fin.ext_iff]
    omega
  simp only [hr, forall_eq]

/-- The check does not panic if the smaller branches stand at the first positions. -/
theorem leftBranchesAreEmpty_noPanic {op : InnerOp} {pl : Place w} (h : op.cut = pl.cut)
    (hthere : ∀ q, σ q < σ pl.position → (q : ℕ) < σ pl.position) :
    NoPanic (leftBranchesAreEmpty s op) := by
  by_cases hin : w.arity < 2 ^ 31 ∧ (σ pl.position : ℕ) ≠ 0
  · rw [leftBranchesAreEmpty_at L h hin.1 hin.2]
    split_ifs with hshort
    · exact noPanic_ok false
    · refine branchesAreEmpty_noPanic L (base_lt L pl _) (fun i hi => ?_) fun q hq => ?_
      · exact (List.mem_range.1 hi).trans (σ pl.position).isLt
      · exact (slot_fits_iff hshort).2 (hthere q (List.mem_range.1 hq))
  · exact (leftBranchesAreEmpty_ne_ok L h hin).2

/-- The check on a step that is not at the first branch, if no slot can hold the empty child. -/
theorem leftBranchesAreEmpty_of_length_ne {op : InnerOp} {pl : Place w} (h : op.cut = pl.cut)
    (hsize : s.emptyChild.length ≠ w.width) (hfirst : (σ pl.position : ℕ) ≠ 0) :
    leftBranchesAreEmpty s op ≠ .ok true ∧
      (NoPanic (leftBranchesAreEmpty s op) ↔
        ¬ w.arity < 2 ^ 31 ∨
        (pl.node.before pl.position).length < σ pl.position * w.width ∨
        ∀ q, (σ q : ℕ) = 0 → (q : ℕ) < σ pl.position) := by
  by_cases hfew : w.arity < 2 ^ 31
  · rw [leftBranchesAreEmpty_at L h hfew hfirst]
    split_ifs with hshort
    · simp [hshort, noPanic_ok]
    · obtain ⟨rest, hrange⟩ := exists_range_eq (Nat.pos_of_ne_zero hfirst)
      obtain ⟨q, honly⟩ := exists_firstBranch_position σ w.arity_pos
      have hloop := branchesAreEmpty_of_length_ne L (pl.node.before pl.position)
        (base_lt L pl (σ pl.position * w.width)) hsize q rest
      rw [(honly q).2 rfl] at hloop
      rw [hrange, List.range_zero, List.nil_append, hloop]
      simp only [honly, forall_eq, slot_fits_iff hshort, hfew, hshort, not_true_eq_false, false_or]
      split_ifs with hfits
      · simp [hfits, noPanic_ok]
      · simp [hfits, NoPanic]
  · have hout : ¬ (w.arity < 2 ^ 31 ∧ (σ pl.position : ℕ) ≠ 0) := fun hin => hfew hin.1
    obtain ⟨hne, hnoPanic⟩ := leftBranchesAreEmpty_ne_ok L h hout
    exact ⟨hne, iff_of_true hnoPanic (.inl hfew)⟩

/-! ### The side of greater branches -/

theorem rightBranchesAreEmpty_at {op : InnerOp} {pl : Place w} (h : op.cut = pl.cut)
    (hfew : w.arity < 2 ^ 31) (hlast : (σ pl.position : ℕ) + 1 ≠ w.arity) :
    rightBranchesAreEmpty s op =
      if σ pl.position ≠ pl.position then .ok false
      else
        branchesAreEmpty s (pl.node.after pl.position) (0 : ℕ)
          (List.range (w.arity - (σ pl.position + 1))) := by
  obtain ⟨-, hsuf⟩ := Prod.mk.inj h
  have hb := L.toInt_branch pl.position
  have hbn := (σ pl.position).isLt
  have hpn := pl.position.isLt
  have hmul := L.mul_width_le (Nat.sub_le w.arity (σ pl.position + 1))
  have hbranches : ((w.arity : ℤ) - 1 - (σ pl.position : ℕ)) =
      (w.arity - (σ pl.position + 1) : ℕ) := by omega
  have hsize : (w.arity - (pl.position + 1)) * w.width = (w.arity - (σ pl.position + 1)) * w.width ↔
      σ pl.position = pl.position := by
    rw [Nat.mul_left_inj w.width_pos.ne', Fin.ext_iff]
    omega
  rw [rightBranchesAreEmpty, rightBranchesAreEmptyIn, orderFromPadding_at L h, if_pos hfew, ok_bind]
  simp only [hb, L.childSize, L.length_childOrder, hsuf, hbranches, pl.node.length_after]
  rw [if_neg (by omega), ← Nat.cast_mul, int_natCast (by omega)]
  simp only [ne_eq, Nat.cast_inj, hsize, Int.toNat_natCast, pure_eq, Nat.cast_zero]

/-- Without a branch number there is no answer, and at the last branch the answer is no. -/
theorem rightBranchesAreEmpty_ne_ok {op : InnerOp} {pl : Place w} (h : op.cut = pl.cut)
    (hout : ¬ (w.arity < 2 ^ 31 ∧ (σ pl.position : ℕ) + 1 ≠ w.arity)) :
    rightBranchesAreEmpty s op ≠ .ok true ∧ NoPanic (rightBranchesAreEmpty s op) := by
  rw [rightBranchesAreEmpty, rightBranchesAreEmptyIn, orderFromPadding_at L h]
  split_ifs with hfew
  · have hlast : (σ pl.position : ℕ) + 1 = w.arity := by
      by_contra hne
      exact hout ⟨hfew, hne⟩
    rw [ok_bind, L.toInt_branch, L.length_childOrder]
    simp only [show (w.arity : ℤ) - 1 - (σ pl.position : ℕ) = 0 by omega, if_true, pure_eq]
    exact ⟨by simp, noPanic_ok false⟩
  · exact ⟨by simp, noPanic_err _⟩

omit L in
/-- A slot of those after a step. -/
theorem slot_fits_after_iff (pl : Place w) {q : ℕ} :
    0 + q * w.width + w.width ≤ (pl.node.after pl.position).length ↔
      q + pl.position + 1 < w.arity := by
  have hpos := pl.position.isLt
  rw [pl.node.length_after, zero_add, w.slot_le_iff]
  omega

/-- The check looks at the slots after the step, by the positions of as many of the first branches
as there are greater ones. -/
theorem rightBranchesAreEmpty_eq_ok {op : InnerOp} {pl : Place w} (h : op.cut = pl.cut) :
    rightBranchesAreEmpty s op = .ok true ↔
      (w.arity < 2 ^ 31 ∧ (σ pl.position : ℕ) + 1 ≠ w.arity) ∧ σ pl.position = pl.position ∧
        ∀ q, (σ q : ℕ) + pl.position + 1 < w.arity → (q : ℕ) + pl.position + 1 < w.arity ∧
          ((pl.node.after pl.position).drop (q * w.width)).take w.width = s.emptyChild := by
  by_cases hin : w.arity < 2 ^ 31 ∧ (σ pl.position : ℕ) + 1 ≠ w.arity
  · rw [rightBranchesAreEmpty_at L h hin.1 hin.2]
    split_ifs with hout
    · simp [hout]
    · rw [ne_eq, not_not] at hout
      have hbranches : ∀ i ∈ List.range (w.arity - (σ pl.position + 1)), i < w.arity :=
        fun i hi => (List.mem_range.1 hi).trans_le (Nat.sub_le _ _)
      rw [and_iff_right hin, and_iff_right hout,
        branchesAreEmpty_eq_ok L (by norm_num) hbranches, hout]
      simp only [List.mem_range, zero_add, pl.node.length_after]
      refine forall_congr' fun q => imp_congr (by omega) (and_congr_left fun _ => ?_)
      rw [← slot_fits_after_iff pl, pl.node.length_after, zero_add]
  · simp only [hin, false_and, iff_false]
    exact (rightBranchesAreEmpty_ne_ok L h hin).1

/-- The same in terms of slots. -/
theorem rightBranchesAreEmpty_iff_slots {op : InnerOp} {pl : Place w} (h : op.cut = pl.cut) :
    rightBranchesAreEmpty s op = .ok true ↔
      (w.arity < 2 ^ 31 ∧ (σ pl.position : ℕ) + 1 ≠ w.arity) ∧ σ pl.position = pl.position ∧
        ∀ q, (σ q : ℕ) + pl.position + 1 < w.arity → (q : ℕ) + pl.position + 1 < w.arity ∧
          ∀ r : Fin w.arity, (r : ℕ) = pl.position + 1 + q → pl.node.slot r = s.emptyChild := by
  rw [rightBranchesAreEmpty_eq_ok L h]
  refine and_congr_right fun _ => and_congr_right fun _ => forall₂_congr fun q _ =>
    and_congr_right fun hq => ?_
  obtain ⟨slot, hslot⟩ : ∃ r : Fin w.arity, (r : ℕ) = pl.position + 1 + q :=
    ⟨⟨pl.position + 1 + q, by omega⟩, rfl⟩
  have hwindow := pl.node.window_after (show (pl.position : ℕ) < slot by omega)
  rw [show (slot : ℕ) - (pl.position + 1) = q by omega] at hwindow
  have hr (r : Fin w.arity) : (r : ℕ) = pl.position + 1 + q ↔ r = slot := by
    rw [← hslot, Fin.ext_iff]
  simp only [hwindow, hr, forall_eq]

/-- The check does not panic if as many of the first branches as there are greater ones stand at the
first positions. -/
theorem rightBranchesAreEmpty_noPanic {op : InnerOp} {pl : Place w} (h : op.cut = pl.cut)
    (hthere : ∀ q, (σ q : ℕ) + pl.position + 1 < w.arity → (q : ℕ) + pl.position + 1 < w.arity) :
    NoPanic (rightBranchesAreEmpty s op) := by
  by_cases hin : w.arity < 2 ^ 31 ∧ (σ pl.position : ℕ) + 1 ≠ w.arity
  · rw [rightBranchesAreEmpty_at L h hin.1 hin.2]
    split_ifs with hout
    · exact noPanic_ok false
    · rw [ne_eq, not_not] at hout
      refine branchesAreEmpty_noPanic L (by norm_num) (fun i hi => ?_) fun q hq => ?_
      · exact (List.mem_range.1 hi).trans_le (Nat.sub_le _ _)
      · rw [hout, List.mem_range] at hq
        exact (slot_fits_after_iff pl).2 (hthere q (by omega))
  · exact (rightBranchesAreEmpty_ne_ok L h hin).2

/-- The check on a step that is not at the last branch, if no slot can hold the empty child. -/
theorem rightBranchesAreEmpty_of_length_ne {op : InnerOp} {pl : Place w} (h : op.cut = pl.cut)
    (hsize : s.emptyChild.length ≠ w.width) (hlast : (σ pl.position : ℕ) + 1 ≠ w.arity) :
    rightBranchesAreEmpty s op ≠ .ok true ∧
      (NoPanic (rightBranchesAreEmpty s op) ↔
        ¬ w.arity < 2 ^ 31 ∨ σ pl.position ≠ pl.position ∨
        ∀ q, (σ q : ℕ) = 0 → (q : ℕ) + pl.position + 1 < w.arity) := by
  by_cases hfew : w.arity < 2 ^ 31
  · rw [rightBranchesAreEmpty_at L h hfew hlast]
    split_ifs with hout
    · simp [hout, noPanic_ok]
    · have hb := (σ pl.position).isLt
      obtain ⟨rest, hrange⟩ := exists_range_eq
        (show 0 < w.arity - (σ pl.position + 1) by omega)
      obtain ⟨q, honly⟩ := exists_firstBranch_position σ w.arity_pos
      have hloop := branchesAreEmpty_of_length_ne L (pl.node.after pl.position)
        (show 0 < 2 ^ 62 by norm_num) hsize q rest
      rw [(honly q).2 rfl] at hloop
      rw [hrange, List.range_zero, List.nil_append, hloop]
      simp only [honly, forall_eq, slot_fits_after_iff, hfew, hout, not_true_eq_false, false_or]
      split_ifs with hfits
      · simp [hfits, noPanic_ok]
      · simp [hfits, NoPanic]
  · have hout : ¬ (w.arity < 2 ^ 31 ∧ (σ pl.position : ℕ) + 1 ≠ w.arity) := fun hin => hfew hin.1
    obtain ⟨hne, hnoPanic⟩ := rightBranchesAreEmpty_ne_ok L h hout
    exact ⟨hne, iff_of_true hnoPanic (.inl hfew)⟩

end Layout

end Ics23.Go
