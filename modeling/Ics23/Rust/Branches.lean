import Ics23.Rust.Places
import Ics23.Rust.Preimages
import Ics23.Rust.Iavl
import Ics23.Rust.Smt
import Ics23.Rust.Tendermint

/-!
# Branches of accepted inner ops

The checks on existence proofs bound the prefix of an inner op and count the suffix in whole
children, while the checks on neighbors look for a branch with exactly the padding of the op.  Under
a built-in spec, an accepted op has the padding of exactly one branch if and only if it leaves all
siblings of one child (`builtIn_inOneBranch_iff`).
-/

namespace Ics23.Rust

open Outcome

variable {P : Prost}

/-- Step number `layer` of an existence proof passes its checks. -/
structure AcceptedStep (P : Prost) (spec : ProofSpec) (layer : ℤ) (op : InnerOp) : Prop where
  header : ensureInnerPrefix P op.prefix_ spec layer op.hash = .ok ()
  inner : ensureInner op spec = .ok ()

/-- The op has the padding of the branch. -/
def InBranch (s : InnerSpec) (op : InnerOp) (b : ℕ) : Prop :=
  ∃ pad, getPadding s b = .ok pad ∧ hasPadding op pad

instance (s : InnerSpec) (op : InnerOp) (b : ℕ) : Decidable (InBranch s op b) :=
  match h : getPadding s b with
  | .ok pad => decidable_of_iff (hasPadding op pad) (by simp [InBranch, h])
  | .err _ => .isFalse (by simp [InBranch, h])
  | .panic _ => .isFalse (by simp [InBranch, h])

def InOneBranch (s : InnerSpec) (op : InnerOp) : Prop :=
  ∃! b, b < s.childOrder.length ∧ InBranch s op b

/-- The op has as many bytes as a header of an allowed length and all children but one. -/
def LeavesSiblings (s : InnerSpec) (op : InnerOp) : Prop :=
  s.minPrefixLength.toInt + (s.childOrder.length - 1 : ℕ) * s.childSize.toInt ≤
      (op.prefix_.length + op.suffix.length : ℕ) ∧
    ((op.prefix_.length + op.suffix.length : ℕ) : ℤ) ≤
      s.maxPrefixLength.toInt + (s.childOrder.length - 1 : ℕ) * s.childSize.toInt

section Layout

variable {s : InnerSpec} {w : Layout} {σ : Equiv.Perm (Fin w.arity)} (L : HasLayout s w σ)
  (hfits : (w.arity - 1) * w.width + w.hi < 2 ^ 31)

include L

theorem leavesSiblings_iff {op : InnerOp} :
    LeavesSiblings s op ↔
      w.lo + (w.arity - 1) * w.width ≤ op.prefix_.length + op.suffix.length ∧
        op.prefix_.length + op.suffix.length ≤ w.hi + (w.arity - 1) * w.width := by
  unfold LeavesSiblings
  rw [L.length_childOrder, L.childSize, L.minPrefixLength, L.maxPrefixLength]
  norm_cast

include hfits

theorem getPadding_branch (b : Fin w.arity) :
    getPadding s b =
      .ok ⟨b * w.width + w.lo, b * w.width + w.hi, (w.arity - (b + 1)) * w.width⟩ := by
  have hmul : b * w.width ≤ (w.arity - 1) * w.width :=
    Nat.mul_le_mul_right _ (Nat.le_sub_one_of_lt b.isLt)
  exact (getPadding_eq_ok L b.isLt).2 ⟨by omega, rfl⟩

theorem inBranch_iff {op : InnerOp} (b : Fin w.arity) :
    InBranch s op b ↔ w.Around b op.prefix_.length op.suffix.length := by
  unfold InBranch
  rw [getPadding_branch L hfits, ← hasPadding_iff_around]
  simp only [Outcome.ok.injEq, exists_eq_left']

/-- Branches that the op is not in are passed over. -/
theorem firstBranch_of_not_inBranch {op : InnerOp} {passed branches : List ℕ}
    (h : ∀ b ∈ passed, b < w.arity ∧ ¬ InBranch s op b) :
    firstBranch s op (passed ++ branches) = firstBranch s op branches := by
  refine firstBranch_append fun b hb => ?_
  obtain ⟨hlt, hnot⟩ := h b hb
  have hpad := getPadding_branch L hfits ⟨b, hlt⟩
  exact ⟨_, hpad, fun hop => hnot ⟨_, hpad, hop⟩⟩

variable (harity : w.arity < 2 ^ 31)

include harity

omit hfits in
theorem branches_eq_range : (asI32 s.childOrder.length).toNat = w.arity := by
  rw [L.length_childOrder, asI32, Int32.toInt_ofNat_of_lt harity, Int.toNat_natCast]

/-- The only branch of an op is found. -/
theorem orderFromPadding_of_inBranch {op : InnerOp} {b : ℕ} (hb : b < w.arity)
    (h : InBranch s op b) : orderFromPadding s op = .ok b := by
  obtain ⟨rest, hrange⟩ := exists_range_eq hb
  have haround := (inBranch_iff L hfits ⟨b, hb⟩).1 h
  rw [orderFromPadding, branches_eq_range L harity, hrange, firstBranch_of_not_inBranch L hfits]
  · obtain ⟨pad, hpad, hop⟩ := h
    rw [firstBranch, hpad, ok_bind, if_pos hop]
    rfl
  · intro b' hb'
    have hlt := List.mem_range.1 hb'
    refine ⟨hlt.trans hb, fun h' => hlt.ne ?_⟩
    have haround' := (inBranch_iff L hfits ⟨b', hlt.trans hb⟩).1 h'
    exact congrArg Fin.val (haround'.unique haround)

/-- An op in no branch is reported. -/
theorem orderFromPadding_of_not_inBranch {op : InnerOp} (h : ∀ b < w.arity, ¬ InBranch s op b) :
    orderFromPadding s op = .err "padding doesn't match any branch" := by
  rw [orderFromPadding, branches_eq_range L harity, ← List.append_nil (List.range w.arity),
    firstBranch_of_not_inBranch L hfits]
  · rfl
  · intro b hb
    exact ⟨List.mem_range.1 hb, h b (List.mem_range.1 hb)⟩

omit harity

/-- An accepted op is in a branch if and only if all siblings of one child are left. -/
theorem exists_inBranch_iff {op : InnerOp} {spec : ProofSpec} (hinner : spec.innerSpec = some s)
    (h : ensureInner op spec = .ok ()) :
    (∃ b < w.arity, InBranch s op b) ↔ LeavesSiblings s op := by
  obtain ⟨⟨leafSpec, hleaf⟩, -⟩ := specs_of_ensureInner h
  obtain ⟨-, -, hadmits, hsuf⟩ := (ensureInner_iff hleaf hinner).1 h
  have hlo : w.lo ≤ op.prefix_.length := by
    have hmin := hadmits.min_le
    have hhi := L.hi_lt
    have hlo := w.lo_le_hi
    rwa [L.minPrefixLength, asUsize_natCast (by omega)] at hmin
  have hdvd : w.width ∣ op.suffix.length := by
    rw [asUsize_childSize L] at hsuf
    exact Nat.dvd_of_mod_eq_zero hsuf
  have haround : (∃ p, w.Around p op.prefix_.length op.suffix.length) ↔ _ := w.exists_around_iff
  rw [leavesSiblings_iff L]
  constructor
  · rintro ⟨b, hb, hin⟩
    exact (haround.1 ⟨⟨b, hb⟩, (inBranch_iff L hfits ⟨b, hb⟩).1 hin⟩).2.2
  · intro hlen
    obtain ⟨b, hb⟩ := haround.2 ⟨hlo, hdvd, hlen⟩
    exact ⟨b, b.isLt, (inBranch_iff L hfits b).2 hb⟩

end Layout

/-! ### The built-in specs -/

theorem exists_binaryShape {spec : ProofSpec} (hspec : spec ∈ [iavlSpec, tendermintSpec, smtSpec])
    {s : InnerSpec} (hinner : spec.innerSpec = some s) : ∃ w, BinaryShape s w := by
  simp only [List.mem_cons, List.not_mem_nil, or_false] at hspec
  rcases hspec with rfl | rfl | rfl <;> obtain rfl := Option.some.inj hinner
  · exact ⟨_, iavlInnerSpec_binary⟩
  · exact ⟨_, tendermintInnerSpec_binary⟩
  · exact ⟨_, smtInnerSpec_binary⟩

/-- A step that is accepted under a built-in spec is in exactly one branch if and only if it leaves
all siblings of one child.  The search finds a branch that the step is in, and reports a step that
is in none. -/
theorem builtIn_inOneBranch_iff {spec : ProofSpec}
    (hspec : spec ∈ [iavlSpec, tendermintSpec, smtSpec]) {s : InnerSpec}
    (hinner : spec.innerSpec = some s) {layer : ℤ} {op : InnerOp}
    (h : AcceptedStep P spec layer op) :
    (InOneBranch s op ↔ LeavesSiblings s op) ∧
      (∀ b < s.childOrder.length, InBranch s op b → orderFromPadding s op = .ok b) ∧
      ((∀ b < s.childOrder.length, ¬ InBranch s op b) →
        orderFromPadding s op = .err "padding doesn't match any branch") := by
  obtain ⟨w, B⟩ := exists_binaryShape hspec hinner
  have L := B.hasLayout
  have hfits : (w.layout.arity - 1) * w.layout.width + w.layout.hi < 2 ^ 31 := by
    have hchild := w.fits
    show (2 - 1) * w.child + w.hi < 2 ^ 31
    omega
  have harity : w.layout.arity < 2 ^ 31 := show 2 < 2 ^ 31 by norm_num
  have hfound {b : ℕ} (hb : b < w.layout.arity) (hin : InBranch s op b) :=
    orderFromPadding_of_inBranch L hfits harity hb hin
  rw [InOneBranch, L.length_childOrder, ← exists_inBranch_iff L hfits hinner h.inner]
  refine ⟨⟨ExistsUnique.exists, ?_⟩, fun b => hfound,
    orderFromPadding_of_not_inBranch L hfits harity⟩
  rintro ⟨b, hb, hin⟩
  refine ⟨b, ⟨hb, hin⟩, ?_⟩
  rintro b' ⟨hb', hin'⟩
  have heq := Outcome.ok.inj ((hfound hb' hin').symm.trans (hfound hb hin))
  exact Nat.cast_inj.1 heq

/-- A step without siblings. -/
def onlyChild (prefix_ : Bytes) : InnerOp := { hash := 1, prefix_, suffix := [] }

/-- The step is accepted under each built-in spec, and in no branch. -/
theorem onlyChild_not_inOneBranch :
    (AcceptedStep .leb128 iavlSpec 1 (onlyChild [2, 4, 2, 32]) ∧
        ¬ InOneBranch iavlInnerSpec (onlyChild [2, 4, 2, 32])) ∧
      (AcceptedStep .leb128 tendermintSpec 1 (onlyChild [1]) ∧
        ¬ InOneBranch tendermintInnerSpec (onlyChild [1])) ∧
      (AcceptedStep .leb128 smtSpec 1 (onlyChild [1]) ∧
        ¬ InOneBranch smtInnerSpec (onlyChild [1])) := by
  have hnone {s : InnerSpec} {op : InnerOp}
      (h : ∀ b < s.childOrder.length, ¬ InBranch s op b) : ¬ InOneBranch s op :=
    fun ⟨b, ⟨hb, hin⟩, _⟩ => h b hb hin
  refine ⟨⟨⟨?_, ?_⟩, hnone ?_⟩, ⟨⟨?_, ?_⟩, hnone ?_⟩, ⟨?_, ?_⟩, hnone ?_⟩
  all_goals decide

/-- A left child in an IAVL tree. -/
theorem leftChild_inOneBranch :
    let op : InnerOp := { hash := 1, prefix_ := [2, 4, 2, 32], suffix := List.replicate 33 0 }
    InOneBranch iavlInnerSpec op ∧ orderFromPadding iavlInnerSpec op = .ok (0 : ℕ) := by
  intro op
  have hspec : iavlSpec ∈ [iavlSpec, tendermintSpec, smtSpec] := List.mem_cons_self
  have hstep : AcceptedStep .leb128 iavlSpec 1 op := ⟨by decide, by decide⟩
  obtain ⟨hunique, hfound, -⟩ := builtIn_inOneBranch_iff hspec rfl hstep
  have hlen : LeavesSiblings iavlInnerSpec op := by
    unfold LeavesSiblings
    decide
  exact ⟨hunique.2 hlen, hfound 0 (by decide) (by decide)⟩

end Ics23.Rust
