import Ics23.Go.BuiltIn

/-!
# What the Go module asks for on top of the rules

Under a built-in spec the Go module follows the rules that the Rust crate follows, and `Extra` is
all that it asks for on top: paths of a limited length, IAVL leaves of height 0 and size 1, and
Tendermint prefixes that begin with the one of an inner node, and are no longer where there is a
suffix.

* `ExistenceProof.verify_yields`: an existence proof is accepted if and only if it passes the check
  of the spec and its opening is valid;
* `ExistenceProof.checkAgainstSpec_iff`: the check of the spec is the rules together with `Extra`;
* `NonExistenceProof.verify_yields`: a non-existence proof is accepted if and only if its sides pass
  the check of the spec and refute the key.
-/

namespace Ics23

open Outcome Logged

/-! ### What Go adds -/

namespace BuiltIn

/-- The longest path that the Go module accepts. -/
def maxDepth : BuiltIn → ℕ
  | .iavl => 128
  | .tendermint => 128
  | .smt => 256

/-- What the Go module adds to the rules for the prefix of a leaf. -/
def LeafExtra : BuiltIn → Bytes → Prop
  | .iavl, p => ∃ version rest, readHeader p = some (0, 1, version, rest)
  | _, _ => True

/-- What the Go module adds to the rules for an inner op. -/
def StepExtra : BuiltIn → Go.InnerOp → Prop
  | .tendermint, op => (op.suffix ≠ none → op.prefix_ = [1]) ∧ [1] <+: op.prefix_
  | _, _ => True

end BuiltIn

namespace Go

/-- What the Go module adds to the rules for an existence proof. -/
structure Extra (spec : BuiltIn) (p : ExistenceProof) : Prop where
  depth : p.path.length ≤ spec.maxDepth
  leaf : spec.LeafExtra p.opening.prefix_
  path : ∀ op ∈ p.path, spec.StepExtra op

/-! ### The checks of operations -/

theorem specEquals_goSpec_iavlSpec (spec : BuiltIn) :
    specEquals spec.goSpec iavlSpec ↔ spec = .iavl := by
  cases spec <;> decide

theorem specEquals_goSpec_tendermintSpec (spec : BuiltIn) :
    specEquals spec.goSpec tendermintSpec ↔ spec = .tendermint := by
  cases spec <;> decide

theorem validateTendermintOps_eq_ok {op : InnerOp} :
    validateTendermintOps op = .ok () ↔
      (op.suffix ≠ none → op.prefix_ = [1]) ∧ [1] <+: op.prefix_ := by
  unfold validateTendermintOps
  simp only [seq_eq_ok, ensure_eq_ok, hasPrefix_iff]
  constructor
  · rintro ⟨-, hsuffix, hpre⟩
    exact ⟨hsuffix, hpre⟩
  · rintro ⟨hsuffix, hpre⟩
    refine ⟨?_, hsuffix, hpre⟩
    intro hnil
    rw [hnil] at hpre
    simp at hpre

/-- The check of a leaf op: the rules, and what the Go module adds. -/
theorem LeafOp.checkAgainstSpec_iff (spec : BuiltIn) {op : LeafOp} :
    LeafOp.checkAgainstSpec op spec.goSpec = .ok () ↔
      op = leafOp spec.rules.leaves op.prefix_ ∧ spec.rules.LeafPrefix op.prefix_ ∧
        spec.LeafExtra op.prefix_ := by
  rw [LeafOp.checkAgainstSpec_eq_ok spec.follows.leafSpec, specEquals_goSpec_iavlSpec]
  unfold Rules.LeafPrefix
  cases spec with
  | iavl =>
    simp only [true_implies, validateIavlOps_eq_ok, if_true, BuiltIn.rules, iavlRules, IavlPrefix,
      BuiltIn.LeafExtra]
    constructor
    · rintro ⟨⟨_, _, version, rest, hread, ⟨-, hheight, hsize, hversion⟩, hrest, rfl, rfl⟩, hop,
        hhead⟩
      exact ⟨hop, ⟨⟨0, 1, version, rest, hread, hheight, hsize, hversion, hrest⟩, hhead⟩,
        version, rest, hread⟩
    · rintro ⟨hop, ⟨⟨_, _, version, rest, hread, hheight, hsize, hversion, hrest⟩, hhead⟩, _, _,
        hread'⟩
      rw [hread', Option.some.injEq, Prod.mk.injEq, Prod.mk.injEq, Prod.mk.injEq] at hread
      obtain ⟨rfl, rfl, rfl, rfl⟩ := hread
      exact ⟨⟨0, 1, _, _, hread', ⟨hheight, hheight, hsize, hversion⟩, hrest, rfl, rfl⟩, hop, hhead⟩
  | tendermint => simp [BuiltIn.rules, tendermintRules, BuiltIn.LeafExtra]
  | smt => simp [BuiltIn.rules, smtRules, BuiltIn.LeafExtra]

/-- The check of an inner op: the rules, and what the Go module adds. -/
theorem InnerOp.checkAgainstSpec_iff (spec : BuiltIn) {op : InnerOp} {layer : ℕ}
    (hlayer : 1 ≤ layer) :
    op.checkAgainstSpec spec.goSpec layer = .ok () ↔
      op.hash = 1 ∧ spec.rules.InnerCut layer op.cut ∧ spec.StepExtra op := by
  have hlo := spec.rules.slots.lo_pos
  rw [InnerOp.checkAgainstSpec_eq_ok spec.follows.shape spec.follows.leafSpec
    spec.follows.innerSpec, spec.follows.innerHash, specEquals_goSpec_iavlSpec,
    specEquals_goSpec_tendermintSpec, validateTendermintOps_eq_ok]
  unfold Rules.InnerCut
  rw [innerHead_iff]
  have hne : spec.rules.slots.lo ≤ op.cut.1.length → op.cut.1 ≠ [] := by
    intro hmin hnil
    rw [hnil, List.length_nil] at hmin
    omega
  have header : (spec = .iavl → validateIavlOps op.prefix_ op.hash layer = .ok ()) →
      spec.rules.innerHeader layer op.cut.1 := by
    intro h
    cases spec with
    | iavl => exact (iavlPrefix_of_validateIavlOps (h rfl)).2 (by omega)
    | tendermint => trivial
    | smt => trivial
  have extra : spec.StepExtra op ↔ (spec = .tendermint →
      (op.suffix ≠ none → op.prefix_ = [1]) ∧ [1] <+: op.prefix_) := by
    cases spec <;> simp [BuiltIn.StepExtra]
  rw [extra]
  constructor
  · rintro ⟨hhash, hiavl, htendermint, hhead, hmin, hmax, hsuffix⟩
    exact ⟨hhash, ⟨header hiavl, ⟨hne hmin, hhead⟩, hmin, hmax, hsuffix⟩, htendermint⟩
  · rintro ⟨hhash, ⟨hheader, ⟨-, hhead⟩, hmin, hmax, hsuffix⟩, htendermint⟩
    refine ⟨hhash, ?_, htendermint, hhead, hmin, hmax, hsuffix⟩
    rintro rfl
    have hread (n : ℕ) (hn : n = 1 ∨ n = 34) (h : IavlPrefix layer op.cut.1 n) :
        validateIavlOps op.prefix_ op.hash layer = .ok () := by
      obtain ⟨height, size, version, rest, hread, hheight, hsize, hversion, hrest⟩ := h
      refine validateIavlOps_eq_ok.2 ⟨height, size, version, rest, hread, by omega, ?_⟩
      rw [if_neg (by omega)]
      exact ⟨hrest ▸ hn, hhash⟩
    exact hheader.elim (hread 1 (.inl rfl)) (hread 34 (.inr rfl))

/-! ### The check of a proof -/

theorem checkPath_iff (spec : BuiltIn) {layerNum : ℕ} (hlayer : 1 ≤ layerNum)
    {path : List InnerOp} :
    checkPath spec.goSpec layerNum path = .ok () ↔
      (∀ op ∈ path, op.hash = 1) ∧ spec.rules.CutsOk layerNum (path.map InnerOp.cut) ∧
        ∀ op ∈ path, spec.StepExtra op := by
  induction path generalizing layerNum with
  | nil => simp [checkPath, Rules.CutsOk]
  | cons op path ih =>
    have hnext : (layerNum : ℤ) + 1 = (layerNum + 1 : ℕ) := by push_cast; rfl
    have hcuts : spec.rules.CutsOk layerNum ((op :: path).map InnerOp.cut) ↔
        spec.rules.InnerCut layerNum op.cut ∧
          spec.rules.CutsOk (layerNum + 1) (path.map InnerOp.cut) := Iff.rfl
    rw [checkPath, seq_eq_ok, mapErr_eq_ok, hnext, InnerOp.checkAgainstSpec_iff spec hlayer,
      ih (by omega), List.forall_mem_cons, List.forall_mem_cons, hcuts]
    constructor
    · rintro ⟨⟨hhash, hcut, hextra⟩, hhashes, hcuts, hextras⟩
      exact ⟨⟨hhash, hhashes⟩, ⟨hcut, hcuts⟩, hextra, hextras⟩
    · rintro ⟨⟨hhash, hhashes⟩, ⟨hcut, hcuts⟩, hextra, hextras⟩
      exact ⟨⟨hhash, hcut, hextra⟩, hhashes, hcuts, hextras⟩

theorem depth_eq_ok (spec : BuiltIn) (n : ℕ) :
    (¬ (0 < spec.goSpec.minDepth ∧ n < spec.goSpec.minDepth.toInt)) ∧
      (¬ n > (if spec.goSpec.maxDepth = 0 then 128 else spec.goSpec.maxDepth : Int32).toInt ↔
        n ≤ spec.maxDepth) := by
  have hmin : spec.goSpec.minDepth = 0 := by cases spec <;> rfl
  have hmax : (if spec.goSpec.maxDepth = 0 then 128 else spec.goSpec.maxDepth : Int32).toInt =
      spec.maxDepth := by
    cases spec <;> decide
  rw [hmin, hmax]
  refine ⟨fun h => absurd h.1 (by decide), ?_⟩
  rw [gt_iff_lt, not_lt]
  exact Int.ofNat_le

/-- The check of the spec: the rules, and what the Go module adds. -/
theorem ExistenceProof.checkAgainstSpec_iff (spec : BuiltIn) {p : ExistenceProof} :
    p.checkAgainstSpec spec.goSpec = .ok () ↔
      Canonical spec.rules.leaves p ∧ spec.rules.LeafPrefix p.opening.prefix_ ∧
        spec.rules.CutsOk 1 p.opening.cuts ∧ Extra spec p := by
  obtain ⟨hmin, hmax⟩ := depth_eq_ok spec p.path.length
  unfold ExistenceProof.checkAgainstSpec
  cases hleaf : p.leaf with
  | none =>
    simp only [reduceCtorEq, false_iff]
    rintro ⟨hc, -⟩
    obtain ⟨_, hsome⟩ := hc.leaf
    rw [hleaf] at hsome
    contradiction
  | some leaf =>
    have hpre : p.opening.prefix_ = leaf.prefix_ := by
      simp only [ExistenceProof.opening, hleaf, Option.map_some, Option.getD_some]
    have hpath := @checkPath_iff spec 1 (le_refl 1) p.path
    rw [Nat.cast_one] at hpath
    simp only [seq_eq_ok, mapErr_eq_ok, ensure_eq_ok, hmin, hmax, hpath, hpre,
      LeafOp.checkAgainstSpec_iff spec, not_false_eq_true, true_and]
    constructor
    · rintro ⟨⟨hop, hprefix, hextra⟩, hdepth, hhash, hcuts, hsteps⟩
      exact ⟨⟨⟨_, hleaf.trans (congrArg some hop)⟩, hhash⟩, hprefix, hcuts,
        ⟨hdepth, hpre.symm ▸ hextra, hsteps⟩⟩
    · rintro ⟨⟨⟨prefix_, hop⟩, hhash⟩, hprefix, hcuts, hdepth, hextra, hsteps⟩
      obtain rfl : leaf = leafOp spec.rules.leaves prefix_ := Option.some.inj (hleaf.symm.trans hop)
      exact ⟨⟨rfl, hprefix, hpre ▸ hextra⟩, hdepth, hhash, hcuts, hsteps⟩

/-! ### Accepted proofs -/

section Follows

variable {H : HostFunctionsProvider} {S : Set Bytes} {spec : ProofSpec} {inner : InnerSpec}
  {R : Rules} (F : Follows spec inner R)

include F

/-- An existence proof is accepted if and only if it passes the check of the spec and its opening
is valid. -/
theorem ExistenceProof.verify_yields {p : ExistenceProof} {root key value : Bytes} :
    (p.verify H spec root key value).Yields () S ↔
      p.checkAgainstSpec spec = .ok () ∧ p.key.bytes = key ∧ p.value = value ∧
        p.opening.Valid R H S root := by
  constructor
  · intro h
    obtain ⟨-, hkey, hvalue, hvalid⟩ := ExistenceProof.valid_of_verify F h
    unfold ExistenceProof.verify at h
    exact ⟨(yields_liftM.1 (yields_seq.1 h).1), hkey, hvalue, hvalid⟩
  · rintro ⟨hcheck, rfl, rfl, hvalid⟩
    obtain ⟨hc, -, -⟩ := ExistenceProof.checkAgainstSpec_eq_ok F hcheck
    obtain ⟨lp, hlp⟩ := hc.leaf
    have hmsg : p.opening.message R H = R.leaves.message H lp p.key.bytes p.value := by
      simp only [Opening.message, ExistenceProof.opening, hlp, Option.map_some, Option.getD_some,
        leafOp]
    have hpath := (calculatePath_yields F hc.path).2 ⟨hvalid.climb_mem, hvalid.root_eq⟩
    have hmem := hvalid.message_mem
    rw [hmsg] at hpath hmem
    have hcalc : (p.calculate H (some spec)).Yields root S := by
      unfold ExistenceProof.calculate
      rw [hlp]
      exact yields_bind.2 ⟨_, yields_mapErr.2 (LeafOp.apply_yields.2 ⟨hvalid.key_ne,
        hvalid.value_ne, hvalid.key_mem, hvalid.value_mem, hmem, rfl⟩), hpath⟩
    unfold ExistenceProof.verify
    simp only [yields_bind, yields_liftM, yields_mapErr, ensure_eq_ok]
    exact ⟨(), hcheck, (), trivial, (), trivial, root, hcalc, rfl⟩

/-- The neighbour check passes if and only if the paths leave no gap. -/
theorem checkNeighbors_iff {left right : Option ExistenceProof}
    (hl : sideKey left = left.map fun p => p.key.bytes)
    (hr : sideKey right = right.map fun p => p.key.bytes) :
    checkNeighbors spec left right = .ok () ↔
      R.slots.GapCuts ((left.map ExistenceProof.opening).map Opening.cuts)
        ((right.map ExistenceProof.opening).map Opening.cuts) := by
  refine ⟨checkNeighbors_eq_ok F hl hr, fun h => ?_⟩
  unfold checkNeighbors
  rw [hl, hr, F.innerSpec]
  cases left with
  | none =>
    cases right with
    | none => exact h.elim
    | some right =>
      simp only [Option.map_none, Option.map_some, deref, ok_bind, bind_eq_ok, ensure_eq_ok,
        exists_eq_right]
      exact (isLeftMost_eq_ok F.shape).2 h
  | some left =>
    cases right with
    | none =>
      simp only [Option.map_none, Option.map_some, deref, ok_bind, bind_eq_ok, ensure_eq_ok,
        exists_eq_right]
      exact (isRightMost_eq_ok F.shape).2 h
    | some right =>
      simp only [Option.map_some, deref, ok_bind, bind_eq_ok, ensure_eq_ok, exists_eq_right]
      exact (isLeftNeighbor_eq_ok F.shape).2 h

/-- A non-existence proof is accepted if and only if its sides pass the check of the spec and refute
the key. -/
theorem NonExistenceProof.verify_yields {p : NonExistenceProof} {root key : Bytes} :
    (p.verify H spec root key).Yields () S ↔
      (∀ ex ∈ p.left, ex.checkAgainstSpec spec = .ok ()) ∧
      (∀ ex ∈ p.right, ex.checkAgainstSpec spec = .ok ()) ∧
      Refutes R H S root key (p.left.map ExistenceProof.opening)
        (p.right.map ExistenceProof.opening) := by
  constructor
  · intro h
    have hrefutes := (NonExistenceProof.refutes_of_verify F h).2.2
    unfold NonExistenceProof.verify at h
    simp only [yields_seq, verifySide_yields] at h
    exact ⟨fun ex hex => ((ExistenceProof.verify_yields F).1 (h.1 ex hex)).1,
      fun ex hex => ((ExistenceProof.verify_yields F).1 (h.2.1 ex hex)).1, hrefutes⟩
  · rintro ⟨hlcheck, hrcheck, h⟩
    have hvl := Option.forall_mem_map.1 h.left_valid
    have hvr := Option.forall_mem_map.1 h.right_valid
    have hl : ∀ ex ∈ p.left, (ex.verify H spec root ex.key.bytes ex.value).Yields () S :=
      fun ex hex => (ExistenceProof.verify_yields F).2 ⟨hlcheck ex hex, rfl, rfl, hvl ex hex⟩
    have hr : ∀ ex ∈ p.right, (ex.verify H spec root ex.key.bytes ex.value).Yields () S :=
      fun ex hex => (ExistenceProof.verify_yields F).2 ⟨hrcheck ex hex, rfl, rfl, hvr ex hex⟩
    have hlkey := sideKey_of_verify F hl
    have hrkey := sideKey_of_verify F hr
    unfold NonExistenceProof.verify
    simp only [yields_seq, verifySide_yields, ensureRange_yields, yields_liftM, ensure_eq_ok]
    refine ⟨hl, hr, ?_, ?_, ?_, (checkNeighbors_iff F hlkey hrkey).2 h.gap⟩
    · -- without sides there would be a gap
      rw [hlkey, hrkey]
      rintro ⟨hleft, hright⟩
      have hgap := h.gap
      rw [Option.map_eq_none_iff.1 hleft, Option.map_eq_none_iff.1 hright] at hgap
      exact hgap.elim
    · rw [hrkey]
      refine Option.forall_mem_map.2 fun ex hex => (compareKeys_yields F).2 ⟨?_, fun hf => ?_⟩
      · exact (compareBytes_eq_lt.2 (Option.forall_mem_map.1 h.lt_right ex hex)).symm
      · exact ⟨h.key_mem hf, (hvr ex hex).key_mem hf⟩
    · rw [hlkey]
      refine Option.forall_mem_map.2 fun ex hex => (compareKeys_yields F).2 ⟨?_, fun hf => ?_⟩
      · exact (compareBytes_eq_gt.2 (Option.forall_mem_map.1 h.left_lt ex hex)).symm
      · exact ⟨h.key_mem hf, (hvl ex hex).key_mem hf⟩

end Follows

end Go

end Ics23
