import Ics23.Rust.Neighbors

/-!
# Places in nodes of any arity, in the Rust crate

The crate looks up a branch in the child order and gets the branch itself back, so it takes every
branch for its position.

* `orderFromPadding_branch_iff`: when the branch of a step is found;
* `outermostExact_iff`: when the checks on leftmost and rightmost paths are exact, for branches in
  order.
-/

namespace Ics23.Rust

open Outcome

/-! ### The search for a branch -/

section Search

variable {s : InnerSpec} {op : InnerOp}

theorem hasPadding_of_firstBranch {branches : List ℕ} {x : ℤ}
    (h : firstBranch s op branches = .ok x) :
    ∃ b ∈ branches, x = b ∧ ∃ pad, getPadding s b = .ok pad ∧ hasPadding op pad := by
  induction branches with
  | nil => contradiction
  | cons b branches ih =>
    obtain ⟨pad, hpad, h⟩ := bind_eq_ok.1 h
    split_ifs at h with hop
    · exact ⟨b, List.mem_cons_self, (Outcome.ok.inj h).symm, pad, hpad, hop⟩
    · obtain ⟨b', hb', hx⟩ := ih h
      exact ⟨b', List.mem_cons_of_mem b hb', hx⟩

/-- Branches with another padding are passed over. -/
theorem firstBranch_append {passed branches : List ℕ}
    (h : ∀ b ∈ passed, ∃ pad, getPadding s b = .ok pad ∧ ¬ hasPadding op pad) :
    firstBranch s op (passed ++ branches) = firstBranch s op branches := by
  induction passed with
  | nil => rfl
  | cons b passed ih =>
    rw [List.forall_mem_cons] at h
    obtain ⟨⟨pad, hpad, hop⟩, h⟩ := h
    rw [List.cons_append, firstBranch, hpad, ok_bind, if_neg hop, ih h]

end Search

section Layout

variable {s : InnerSpec} {w : Layout} {σ : Equiv.Perm (Fin w.arity)} (L : HasLayout s w σ)

include L

omit L in
theorem hasPadding_iff_around {op : InnerOp} {b : Fin w.arity} :
    hasPadding op ⟨b * w.width + w.lo, b * w.width + w.hi, (w.arity - (b + 1)) * w.width⟩ ↔
      w.Around b op.prefix_.length op.suffix.length := by
  simp only [hasPadding, Bool.and_eq_true, decide_eq_true_eq, beq_iff_eq]
  constructor
  · rintro ⟨⟨hlo, hhi⟩, hafter⟩
    exact ⟨hlo, hhi, hafter⟩
  · rintro ⟨hlo, hhi, hafter⟩
    exact ⟨⟨hlo, hhi⟩, hafter⟩

omit L in
/-- A step has the padding of a position exactly when it is cut there. -/
theorem hasPadding_iff {op : InnerOp} {pl : Place w} (h : op.cut = pl.cut) {b : Fin w.arity} :
    hasPadding op ⟨b * w.width + w.lo, b * w.width + w.hi, (w.arity - (b + 1)) * w.width⟩ ↔
      pl.position = b := by
  obtain ⟨hpre, hsuf⟩ := Prod.mk.inj h
  rw [hasPadding_iff_around, hpre, hsuf, pl.node.around_iff]

/-- The branch of a step is found to be its position, unless there are too many branches or too many
bytes before it. -/
theorem orderFromPadding_eq_ok {op : InnerOp} {pl : Place w} (h : op.cut = pl.cut) {x : ℤ} :
    orderFromPadding s op = .ok x ↔
      (w.arity < 2 ^ 31 ∧ pl.position * w.width + w.hi < 2 ^ 31) ∧ x = pl.position := by
  have harity := L.arity_le
  have hlast : (asI32 s.childOrder.length).toNat = if w.arity < 2 ^ 31 then w.arity else 0 := by
    rw [L.length_childOrder, asI32]
    split_ifs with hlt
    · rw [Int32.toInt_ofNat_of_lt hlt, Int.toNat_natCast]
    · rw [show w.arity = 2 ^ 31 by omega]
      rfl
  rw [orderFromPadding, hlast]
  constructor
  · intro hx
    obtain ⟨b, hb, rfl, pad, hpad, hop⟩ := hasPadding_of_firstBranch hx
    split_ifs at hb with hlt
    · have hbn : b < w.arity := List.mem_range.1 hb
      obtain ⟨hfits, rfl⟩ := (getPadding_eq_ok L hbn).1 hpad
      have hpos : pl.position = ⟨b, hbn⟩ := (hasPadding_iff h (b := ⟨b, hbn⟩)).1 hop
      rw [hpos]
      exact ⟨⟨hlt, hfits⟩, rfl⟩
    · simp at hb
  · rintro ⟨⟨hlt, hfits⟩, rfl⟩
    obtain ⟨rest, hrange⟩ := exists_range_eq pl.position.isLt
    rw [if_pos hlt, hrange, firstBranch_append, firstBranch,
      (getPadding_eq_ok L pl.position.isLt).2 ⟨hfits, rfl⟩, ok_bind,
      if_pos ((hasPadding_iff h).2 rfl)]
    · rfl
    · intro b hb
      have hbp := List.mem_range.1 hb
      have hbn := hbp.trans pl.position.isLt
      have hmul : b * w.width ≤ pl.position * w.width := Nat.mul_le_mul_right _ hbp.le
      refine ⟨_, (getPadding_eq_ok L hbn).2 ⟨by omega, rfl⟩, fun hop => ?_⟩
      have hpos : pl.position = ⟨b, hbn⟩ := (hasPadding_iff h (b := ⟨b, hbn⟩)).1 hop
      simp [hpos] at hbp

/-! ### Empty branches -/

/-- The slots that the loop looks at are all there, and all empty. -/
theorem branchesAreEmpty_eq_ok {bytes : Bytes} {base : ℕ} (hbase : base < 2 ^ 32)
    {branches : List ℕ} (h : ∀ i ∈ branches, i < w.arity) :
    branchesAreEmpty s bytes base branches = .ok true ↔
      ∀ i ∈ branches, base + i * w.width + w.width ≤ bytes.length ∧
        (bytes.drop (base + i * w.width)).take w.width = s.emptyChild := by
  induction branches with
  | nil => simp [branchesAreEmpty]
  | cons i branches ih =>
    rw [List.forall_mem_cons] at h
    obtain ⟨x, hfind, hx⟩ := findBranch_eq L h.1
    have hi := L.mul_width_le h.1.le
    have hwidth := L.width_lt
    have harity := L.arity_le
    have hidx : asUsize x.toInt = i := by rw [hx, asUsize_natCast (by omega)]
    rw [List.forall_mem_cons, ← ih h.2, branchesAreEmpty, hfind]
    simp only [hidx, asUsize_childSize L]
    rw [mulUsize_eq (by omega), ok_bind, addUsize_eq (by omega), ok_bind, addUsize_eq (by omega),
      ok_bind, bind_eq_ok]
    simp only [slice_eq_ok, Nat.add_sub_cancel_left, Nat.le_add_right, true_and]
    constructor
    · rintro ⟨_, ⟨hlen, rfl⟩, h⟩
      split_ifs at h with he
      · simp at h
      · exact ⟨⟨hlen, (not_not.1 he).symm⟩, h⟩
    · rintro ⟨⟨hlen, he⟩, h⟩
      exact ⟨_, ⟨hlen, rfl⟩, by rw [if_neg (not_not.2 he.symm), h]⟩

/-- The branches before a step are empty. -/
theorem leftBranchesAreEmpty_eq_ok {op : InnerOp} {pl : Place w} (h : op.cut = pl.cut) :
    leftBranchesAreEmpty s op = .ok true ↔
      (w.arity < 2 ^ 31 ∧ pl.position * w.width + w.hi < 2 ^ 31) ∧ (pl.position : ℕ) ≠ 0 ∧
        pl.EmptyBefore 1 s.emptyChild := by
  obtain ⟨hpre, -⟩ := Prod.mk.inj h
  have hpos := pl.position.isLt
  have harity := L.arity_le
  have hp : asUsize (pl.position : ℕ) = pl.position := asUsize_natCast (by omega)
  have hmul := L.mul_width_le hpos.le
  have hlen := pl.node.length_before hpos.le
  have hhead := pl.node.le_hi
  have hhi := L.hi_lt
  rw [leftBranchesAreEmpty, bind_eq_ok]
  simp only [orderFromPadding_eq_ok L h, and_assoc, exists_and_left, exists_eq_left, hp,
    asUsize_childSize L]
  refine and_congr_right fun _ => and_congr_right fun _ => ?_
  by_cases hzero : (pl.position : ℕ) = 0
  · simp [hzero]
  · have hbase : op.prefix_.length - pl.position * w.width = pl.node.header.length := by
      rw [hpre]
      omega
    rw [if_neg hzero, mulUsize_eq (by omega), ok_bind, if_neg (by rw [hpre]; omega), hbase,
      branchesAreEmpty_eq_ok L (by omega) fun i hi => (List.mem_range.1 hi).trans hpos]
    constructor
    · intro hall
      refine ⟨hzero, fun q hq => ?_⟩
      have hqp : (q : ℕ) < pl.position := hq
      have hslot := (hall q (List.mem_range.2 hqp)).2
      rwa [hpre, pl.node.window_before hqp] at hslot
    · rintro ⟨-, hempty⟩ i hi
      have hip := List.mem_range.1 hi
      have hmul := w.slot_le_iff.2 hip
      refine ⟨by rw [hpre]; omega, ?_⟩
      rw [hpre, pl.node.window_before (q := ⟨i, hip.trans hpos⟩) hip]
      exact hempty ⟨i, hip.trans hpos⟩ hip

/-- The branches after a step are found to be empty only if there is one of them. -/
theorem rightBranchesAreEmpty_eq_ok {op : InnerOp} {pl : Place w} (h : op.cut = pl.cut) :
    rightBranchesAreEmpty s op = .ok true ↔
      (w.arity < 2 ^ 31 ∧ pl.position * w.width + w.hi < 2 ^ 31) ∧
        (pl.position : ℕ) + 2 = w.arity ∧ pl.EmptyAfter 1 s.emptyChild := by
  obtain ⟨-, hsuf⟩ := Prod.mk.inj h
  have hpos := pl.position.isLt
  have harity := L.arity_le
  have hp : asUsize (pl.position : ℕ) = pl.position := asUsize_natCast (by omega)
  have hlen := pl.node.length_after pl.position
  have hwidth := w.width_pos
  have hbranches : w.arity - 1 - pl.position = w.arity - (pl.position + 1) := by omega
  rw [rightBranchesAreEmpty, bind_eq_ok]
  simp only [orderFromPadding_eq_ok L h, and_assoc, exists_and_left, exists_eq_left, hp,
    asUsize_childSize L, L.length_childOrder]
  refine and_congr_right fun _ => and_congr_right fun _ => ?_
  rw [subUsize_eq w.arity_pos, ok_bind, subUsize_eq (by omega), ok_bind, hbranches]
  by_cases hzero : w.arity - (pl.position + 1) = 0
  · simp only [hzero, if_true, pure_eq, Outcome.ok.injEq, Bool.false_eq_true, false_iff]
    omega
  by_cases hone : w.arity - (pl.position + 1) = 1
  · let next : Fin w.arity := ⟨pl.position + 1, by omega⟩
    have hslot : ((pl.node.after pl.position).drop (0 + 0 * w.width)).take w.width =
        pl.node.slot next := by
      have hwindow := pl.node.window_after (q := next) (Nat.lt_succ_self pl.position)
      rwa [Nat.sub_self, ← zero_add (0 * w.width)] at hwindow
    rw [if_neg hzero, if_neg (by rw [hsuf, hlen, hone]; omega), hone,
      branchesAreEmpty_eq_ok L (by omega) fun i hi => by have := List.mem_range.1 hi; omega, hsuf]
    simp only [List.range_one, List.forall_mem_singleton, hslot]
    constructor
    · rintro ⟨-, hempty⟩
      refine ⟨by omega, fun q hq => ?_⟩
      have hqp : (pl.position : ℕ) < q := hq
      have hnext : q = next := Fin.ext (show (q : ℕ) = pl.position + 1 by omega)
      rw [hnext, hempty]
    · rintro ⟨-, hempty⟩
      exact ⟨by rw [hlen, hone]; omega, hempty next (Nat.lt_succ_self pl.position)⟩
  · have hmany : 2 * w.width ≤ (w.arity - (pl.position + 1)) * w.width :=
      Nat.mul_le_mul_right _ (by omega)
    rw [if_neg hzero, if_pos (by rw [hsuf, hlen]; omega)]
    simp only [pure_eq, Outcome.ok.injEq, Bool.false_eq_true, false_iff]
    omega

/-! ### Outermost paths -/

theorem ensureLeftMost_iff {path : List InnerOp} {places : List (Place w)}
    (hpath : path.map InnerOp.cut = places.map Place.cut) :
    ensureLeftMost s path = .ok () ↔
      ∀ pl ∈ places, (pl.position : ℕ) = 0 ∨
        (w.arity < 2 ^ 31 ∧ pl.position * w.width + w.hi < 2 ^ 31) ∧
          pl.EmptyBefore 1 s.emptyChild := by
  have hpad := (getPadding_eq_ok L w.arity_pos).2 ⟨by rw [zero_mul, zero_add]; exact L.hi_lt, rfl⟩
  rw [Nat.cast_zero] at hpad
  rw [ensureLeftMost, hpad, ok_bind, ensureOutermost_eq_ok]
  refine forall_mem_congr_of_map_eq hpath fun op pl _ h => ?_
  have hzero : hasPadding op ⟨0 * w.width + w.lo, 0 * w.width + w.hi,
      (w.arity - (0 + 1)) * w.width⟩ ↔ (pl.position : ℕ) = 0 :=
    (hasPadding_iff h (b := ⟨0, w.arity_pos⟩)).trans Fin.ext_iff
  rw [hzero, leftBranchesAreEmpty_eq_ok L h]
  by_cases hp : (pl.position : ℕ) = 0 <;> simp [hp]

theorem ensureRightMost_iff {path : List InnerOp} {places : List (Place w)}
    (hpath : path.map InnerOp.cut = places.map Place.cut) :
    ensureRightMost s path = .ok () ↔
      (w.arity - 1) * w.width + w.hi < 2 ^ 31 ∧
        ∀ pl ∈ places, (pl.position : ℕ) + 1 = w.arity ∨
          (w.arity < 2 ^ 31 ∧ (pl.position : ℕ) + 2 = w.arity) ∧
            pl.EmptyAfter 1 s.emptyChild := by
  have harity := L.arity_le
  have hpos := w.arity_pos
  have hlt : w.arity - 1 < w.arity := Nat.sub_lt hpos one_pos
  have hlast : asI32 (w.arity - 1) = (w.arity - 1 : ℕ) := Int32.toInt_ofNat_of_lt (by omega)
  rw [ensureRightMost, L.length_childOrder, subUsize_eq hpos, ok_bind, hlast, bind_eq_ok]
  simp only [getPadding_eq_ok L hlt, and_assoc, exists_and_left, exists_eq_left,
    ensureOutermost_eq_ok]
  refine and_congr_right fun hfits => forall_mem_congr_of_map_eq hpath fun op pl _ h => ?_
  have hmul : pl.position * w.width ≤ (w.arity - 1) * w.width :=
    Nat.mul_le_mul_right _ (Nat.le_sub_one_of_lt pl.position.isLt)
  have hp : pl.position = ⟨w.arity - 1, hlt⟩ ↔ (pl.position : ℕ) + 1 = w.arity := by
    rw [Fin.ext_iff]
    show (pl.position : ℕ) = w.arity - 1 ↔ _
    omega
  rw [hasPadding_iff h (b := ⟨w.arity - 1, hlt⟩), hp, rightBranchesAreEmpty_eq_ok L h]
  have hfits' : pl.position * w.width + w.hi < 2 ^ 31 := by omega
  simp only [hfits', and_true]

/-! ### Child orders -/

/-- The branch of a step is found if and only if the branch stands at its own number, and all bytes
up to it are counted by an `i32`. -/
theorem orderFromPadding_branch_iff (N : Node UInt8 w) (b : Fin w.arity) {op : InnerOp}
    (h : op.cut = Place.cut ⟨N, σ.symm b⟩) :
    orderFromPadding s op = .ok (b : ℕ) ↔
      σ b = b ∧ w.arity < 2 ^ 31 ∧ b * w.width + w.hi < 2 ^ 31 := by
  have hfix : ((b : ℕ) : ℤ) = (σ.symm b : ℕ) ↔ σ b = b := by
    rw [Nat.cast_inj, ← Fin.ext_iff, Equiv.eq_symm_apply]
  rw [orderFromPadding_eq_ok L h, hfix, and_comm]
  refine and_congr_right fun hb => ?_
  rw [show σ.symm b = b from σ.symm_apply_eq.2 hb.symm]

end Layout

/-- The second branch, which stands last. -/
theorem orderFromPadding_merkOrder :
    let op : InnerOp := { hash := 1, prefix_ := [9, 7, 8], suffix := [] }
    let s := ternarySpec [0, 2, 1]
    let b : Fin ternaryLayout.arity := (1 : Fin 3)
    (HasLayout s ternaryLayout merkOrder ∧
      op.cut = Place.cut ⟨ternaryNode 7 8 6, merkOrder.symm b⟩) ∧
    orderFromPadding s op = .ok 2 ∧ ¬ orderFromPadding s op = .ok (b : ℕ) := by
  refine ⟨⟨hasLayout_merkOrder, ?_⟩, ?_⟩
  all_goals decide

/-- The first branch, which stands first. -/
theorem firstPlace_orderFromPadding :
    orderFromPadding (ternarySpec [0, 2, 1]) { hash := 1, prefix_ := [9], suffix := [8, 6] } =
      .ok (0 : ℕ) :=
  (orderFromPadding_branch_iff hasLayout_merkOrder (ternaryNode 7 8 6) (0 : Fin 3) (by decide)).2
    ⟨rfl, by decide, by decide⟩

/-! ### Exact checks -/

/-- The checks accept a path exactly if all children on the outer side are the empty one, for a spec
whose branches are in order. -/
def OutermostExact {w : Layout} (s : InnerSpec) (path : List InnerOp) (places : List (Place w)) :
    Prop :=
  (ensureLeftMost s path = .ok () ↔ ∀ pl ∈ places, pl.EmptyBefore 1 s.emptyChild) ∧
    (ensureRightMost s path = .ok () ↔ ∀ pl ∈ places, pl.EmptyAfter 1 s.emptyChild)

/-- The branch is the first one, or an `i32` counts all branches and the bytes up to it. -/
def LeftInReach (w : Layout) (p : ℕ) : Prop :=
  p = 0 ∨ w.arity < 2 ^ 31 ∧ p * w.width + w.hi < 2 ^ 31

/-- The branch is the last or the last but one, and in the second case an `i32` counts all
branches. -/
def RightInReach (w : Layout) (p : ℕ) : Prop :=
  p + 1 = w.arity ∨ w.arity < 2 ^ 31 ∧ p + 2 = w.arity

/-- The checks are exact if and only if, whenever the children on the outer side are all empty, the
steps are at branches where the check on that side can see this. -/
theorem outermostExact_iff {s : InnerSpec} {w : Layout} (L : HasLayout s w 1)
    {path : List InnerOp} {places : List (Place w)}
    (hpath : path.map InnerOp.cut = places.map Place.cut) :
    OutermostExact s path places ↔
      ((∀ pl ∈ places, pl.EmptyBefore 1 s.emptyChild) →
        ∀ pl ∈ places, LeftInReach w pl.position) ∧
      ((∀ pl ∈ places, pl.EmptyAfter 1 s.emptyChild) →
        (w.arity - 1) * w.width + w.hi < 2 ^ 31 ∧ ∀ pl ∈ places, RightInReach w pl.position) := by
  unfold OutermostExact
  rw [ensureLeftMost_iff L hpath, ensureRightMost_iff L hpath]
  refine and_congr
    ⟨fun h hempty pl hpl => ?_, fun h => ⟨fun hall pl hpl => ?_, fun hempty pl hpl => ?_⟩⟩
    ⟨fun h hempty => ?_, fun h => ⟨fun hall pl hpl => ?_, fun hempty => ?_⟩⟩
  · exact (h.2 hempty pl hpl).imp_right And.left
  · rcases hall pl hpl with hzero | ⟨-, hbefore⟩
    · exact fun q hq => absurd (show (q : ℕ) < pl.position from hq) (by omega)
    · exact hbefore
  · exact (h hempty pl hpl).imp_right fun hreach => ⟨hreach, hempty pl hpl⟩
  · obtain ⟨hfits, hall⟩ := h.2 hempty
    exact ⟨hfits, fun pl hpl => (hall pl hpl).imp_right And.left⟩
  · rcases hall.2 pl hpl with hlast | ⟨-, hafter⟩
    · exact fun q hq => absurd (show (pl.position : ℕ) < q from hq) (by omega)
    · exact hafter
  · obtain ⟨hfits, hall⟩ := h hempty
    exact ⟨hfits, fun pl hpl => (hall pl hpl).imp_right fun hreach => ⟨hreach, hempty pl hpl⟩⟩

/-- Two empty children after the first branch. -/
theorem not_outermostExact_emptyPair :
    let op : InnerOp := { hash := 1, prefix_ := [9], suffix := [0, 0] }
    let pl : Place ternaryLayout := ⟨ternaryNode 7 0 0, (0 : Fin 3)⟩
    (HasLayout (ternarySpec [0, 1, 2]) ternaryLayout 1 ∧ op.cut = pl.cut ∧
      pl.EmptyAfter 1 [0] ∧ ensureRightMost (ternarySpec [0, 1, 2]) [op] =
        .err "step not leftmost") ∧
    ¬ OutermostExact (ternarySpec [0, 1, 2]) [op] [pl] := by
  intro op pl
  have hempty : pl.EmptyAfter 1 [0] := by unfold Place.EmptyAfter; decide
  have herr : ensureRightMost (ternarySpec [0, 1, 2]) [op] = .err "step not leftmost" := by decide
  refine ⟨⟨hasLayout_inOrder, by decide, hempty, herr⟩, fun h => ?_⟩
  have hok := h.2.2 (List.forall_mem_singleton.2 hempty)
  rw [herr] at hok
  contradiction

/-- The middle child between a live one and an empty one. -/
theorem middlePlace_outermostExact :
    OutermostExact (ternarySpec [0, 1, 2]) [{ hash := 1, prefix_ := [9, 7], suffix := [0] }]
      [(⟨ternaryNode 7 8 0, (1 : Fin 3)⟩ : Place ternaryLayout)] :=
  (outermostExact_iff hasLayout_inOrder (by decide)).2
    ⟨fun _ => List.forall_mem_singleton.2 (.inr ⟨by decide, by decide⟩),
      fun _ => ⟨by decide, List.forall_mem_singleton.2 (.inr ⟨by decide, rfl⟩)⟩⟩

end Ics23.Rust
