import Ics23.Rust.Binary

/-!
# The neighbour checks of binary trees

For the inner spec of a binary tree, the checks of `verify.rs` on the paths of a non-existence
proof decide what `Slots` says about their cuts (`ensureLeftMost_eq_ok`, `ensureRightMost_eq_ok`,
`ensureLeftNeighbor_eq_ok`).  Of all the arithmetic, slicing and unwrapping in them, one thing can
panic: popping the common tail of two paths of which one is a tail of the other
(`ensureLeftNeighbor_eq_panic`).
-/

namespace Ics23.Rust

open Outcome

/-! ### The loops -/

theorem ensureOutermost_eq_ok {pad : Padding} {empty : InnerOp → Result Bool}
    {path : List InnerOp} :
    ensureOutermost pad empty path = .ok () ↔
      ∀ op ∈ path, hasPadding op pad ∨ empty op = .ok true := by
  induction path with
  | nil => simp [ensureOutermost]
  | cons step path ih =>
    rw [List.forall_mem_cons, ← ih, ensureOutermost]
    by_cases hpad : hasPadding step pad
    · simp [hpad]
    · simp [hpad, bind_eq_ok]

theorem ensureOutermost_noPanic {pad : Padding} {empty : InnerOp → Result Bool}
    (h : ∀ op, NoPanic (empty op)) (path : List InnerOp) :
    NoPanic (ensureOutermost pad empty path) := by
  induction path with
  | nil => exact noPanic_ok ()
  | cons step path ih =>
    rw [ensureOutermost]
    by_cases hpad : hasPadding step pad
    · simpa [hpad] using ih
    · simpa [hpad] using
        NoPanic.bind (h step) fun _ _ => NoPanic.bind (noPanic_ensure _ _) fun _ _ => ih

/-- The loop finds where the cuts of two paths part, and panics if one runs out before that. -/
theorem popCommon_spec (left right : List InnerOp) :
    (∃ a b l r, popCommon left right = .ok (a, b, l, r) ∧
      diverge (left.map InnerOp.cut) (right.map InnerOp.cut) =
        some (a.cut, b.cut, l.map InnerOp.cut, r.map InnerOp.cut)) ∨
    (popCommon left right = .panic .unwrapNone ∧
      diverge (left.map InnerOp.cut) (right.map InnerOp.cut) = none) :=
  Ics23.popCommon_spec samePadding (fun _ _ => samePadding_iff) Panic.unwrapNone left right

namespace BinaryInner

variable {s : InnerSpec} {w : Slots} (B : BinaryInner s w)

include B

/-! ### Outermost paths -/

theorem ensureLeftMost_eq_ok {path : List InnerOp} :
    ensureLeftMost s path = .ok () ↔ w.LeftMost (path.map InnerOp.cut) := by
  rw [ensureLeftMost, B.getPadding_zero, ok_bind, ensureOutermost_eq_ok, Slots.LeftMost,
    List.forall_mem_map]
  refine forall₂_congr fun op _ => ?_
  rw [hasPadding_left_iff, B.leftBranchesAreEmpty_eq]
  by_cases hl : w.IsLeft op.cut
  · simp [hl]
  · by_cases hr : w.IsRight op.cut <;> simp only [hl, hr] <;> simp [InnerOp.cut]

theorem ensureLeftMost_noPanic (path : List InnerOp) : NoPanic (ensureLeftMost s path) := by
  rw [ensureLeftMost, B.getPadding_zero, ok_bind]
  refine ensureOutermost_noPanic (fun op => ?_) path
  rw [B.leftBranchesAreEmpty_eq]
  split_ifs
  exacts [noPanic_ok _, noPanic_ok _, noPanic_err _]

theorem ensureRightMost_eq (path : List InnerOp) :
    ensureRightMost s path =
      ensureOutermost ⟨w.child + w.lo, w.child + w.hi, 0⟩ (rightBranchesAreEmpty s) path := by
  have hlen : subUsize s.childOrder.length 1 = .ok 1 := by
    rw [B.childOrder]
    rfl
  rw [ensureRightMost, hlen, ok_bind, show asI32 1 = 1 from rfl, B.getPadding_one, ok_bind]

theorem ensureRightMost_eq_ok {path : List InnerOp} :
    ensureRightMost s path = .ok () ↔ w.RightMost (path.map InnerOp.cut) := by
  rw [B.ensureRightMost_eq, ensureOutermost_eq_ok, Slots.RightMost, List.forall_mem_map]
  refine forall₂_congr fun op _ => ?_
  rw [hasPadding_right_iff, B.rightBranchesAreEmpty_eq]
  by_cases hl : w.IsLeft op.cut
  · simp only [hl, hl.not_isRight]
    simp [InnerOp.cut]
  · by_cases hr : w.IsRight op.cut <;> simp [hl, hr]

theorem ensureRightMost_noPanic (path : List InnerOp) : NoPanic (ensureRightMost s path) := by
  rw [B.ensureRightMost_eq]
  refine ensureOutermost_noPanic (fun op => ?_) path
  rw [B.rightBranchesAreEmpty_eq]
  split_ifs
  exacts [noPanic_ok _, noPanic_ok _, noPanic_err _]

/-! ### Neighbours -/

theorem ensureLeftNeighbor_eq_ok {left right : List InnerOp} :
    ensureLeftNeighbor s left right = .ok () ↔
      w.LeftNeighbor (left.map InnerOp.cut) (right.map InnerOp.cut) := by
  unfold ensureLeftNeighbor Slots.LeftNeighbor
  rcases popCommon_spec left.reverse right.reverse with ⟨a, b, l, r, hpop, hdiv⟩ | ⟨hpop, hdiv⟩
  all_goals rw [List.map_reverse, List.map_reverse] at hdiv; rw [hpop, hdiv]
  · simp only [ok_bind]
    constructor
    · intro h
      obtain ⟨step, hstep, h⟩ := bind_eq_ok.1 h
      obtain ⟨hstep', h⟩ := seq_eq_ok.1 h
      obtain ⟨hright, hleft⟩ := seq_eq_ok.1 h
      rw [ensure_eq_ok] at hstep'
      obtain ⟨ha, hb⟩ := B.isLeftStep_eq_ok.1 (hstep' ▸ hstep)
      rw [B.ensureRightMost_eq_ok, List.map_reverse, Slots.rightMost_reverse] at hright
      rw [B.ensureLeftMost_eq_ok, List.map_reverse, Slots.leftMost_reverse] at hleft
      exact ⟨_, _, _, _, rfl, ha, hb, hright, hleft⟩
    · rintro ⟨_, _, _, _, h, ha, hb, hright, hleft⟩
      simp only [Option.some.injEq, Prod.mk.injEq] at h
      obtain ⟨rfl, rfl, rfl, rfl⟩ := h
      rw [B.isLeftStep_eq_ok.2 ⟨ha, hb⟩, ok_bind, seq_eq_ok, seq_eq_ok, ensure_eq_ok,
        B.ensureRightMost_eq_ok, B.ensureLeftMost_eq_ok, List.map_reverse, List.map_reverse,
        Slots.rightMost_reverse, Slots.leftMost_reverse]
      exact ⟨rfl, hright, hleft⟩
  · simp

/-- The only panic of the neighbour check: one path is a tail of the other. -/
theorem ensureLeftNeighbor_eq_panic {left right : List InnerOp} {p : Panic} :
    ensureLeftNeighbor s left right = .panic p ↔
      p = .unwrapNone ∧
        diverge (left.map InnerOp.cut).reverse (right.map InnerOp.cut).reverse = none := by
  unfold ensureLeftNeighbor
  rcases popCommon_spec left.reverse right.reverse with ⟨a, b, l, r, hpop, hdiv⟩ | ⟨hpop, hdiv⟩
  all_goals rw [List.map_reverse, List.map_reverse] at hdiv; rw [hpop, hdiv]
  · have hstep := B.isLeftStep_noPanic a b
    have hright := B.ensureRightMost_noPanic l.reverse
    have hleft := B.ensureLeftMost_noPanic r.reverse
    simp only [ok_bind, reduceCtorEq, and_false, iff_false]
    refine NoPanic.bind hstep (fun _ _ => ?_) p
    exact NoPanic.bind (noPanic_ensure _ _) fun _ _ => NoPanic.bind hright fun _ _ => hleft
  · simp [eq_comm]

end BinaryInner

end Ics23.Rust
