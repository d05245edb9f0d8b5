import Ics23.Go.BuiltIn

/-!
# Go: panics of non-membership

The neighbour check takes the steps that two paths share off their ends without testing whether any
are left, and panics where the paths part at a step that fits no branch.  Two accepted sides around
the key can get there (`Jams`):

* their paths are the same, which takes a leaf message that can be cut into two keys, as those of
  Tendermint can;
* or they part at a step with more than one slot after the child, since the checks only ask that a
  suffix consists of whole slots.

Apart from collisions this is all that can go wrong (`verifyNonMembership_returns_iff`), and it does
go wrong under all three specs (`builtIn_panics`).
-/

namespace Ics23.Go

open Outcome Logged

/-- The paths have the same prefixes and suffixes. -/
def SamePath (left right : List InnerOp) : Prop := left.map InnerOp.cut = right.map InnerOp.cut

/-- The last steps in which the paths differ are such that more than one slot follows the child in
one of them. -/
def PartAtLongSuffix (inner : InnerSpec) (left right : List InnerOp) : Prop :=
  ∃ l r t : List Cut, ∃ a b : Cut,
    left.map InnerOp.cut = l ++ a :: t ∧ right.map InnerOp.cut = r ++ b :: t ∧ a ≠ b ∧
      (inner.childSize.toInt < a.2.length ∨ inner.childSize.toInt < b.2.length)

/-- A non-existence proof whose sides pass `ExistenceProof.Verify` and have keys on both sides of
the given one, the paths being the same or parting at a step with a long suffix. -/
def Jams (H : HostFunctionsProvider) (spec : ProofSpec) (root : Bytes)
    (proof : Option CommitmentProof) (key : Bytes) : Prop :=
  ∃ non inner left right, proof = some (.nonexist (some non)) ∧ spec.innerSpec = some inner ∧
    non.left = some left ∧ non.right = some right ∧
    (left.verify H spec root left.key.bytes left.value).out = .ok () ∧
    (right.verify H spec root right.key.bytes right.value).out = .ok () ∧
    (compareKeys H spec key left.key.bytes).out = .ok .gt ∧
    (compareKeys H spec key right.key.bytes).out = .ok .lt ∧
    (SamePath left.path right.path ∨ PartAtLongSuffix inner left.path right.path)

variable {H : HostFunctionsProvider} {S : Set Bytes}

/-! ### Where paths part -/

theorem not_partPlaced {inner : InnerSpec} {w : Slots} (B : BinaryShape inner w)
    {left right : List InnerOp}
    (h : SamePath left right ∨ PartAtLongSuffix inner left right) :
    ¬ w.PartPlaced (left.map InnerOp.cut) (right.map InnerOp.cut) := by
  rintro ⟨x, y, l', r', hd, hx, hy⟩
  rcases h with hsame | ⟨l, r, t, a, b, hleft, hright, hne, hlong⟩
  · rw [hsame, diverge_eq_none_iff.2 (.inl List.prefix_rfl)] at hd
    contradiction
  · rw [hleft, hright, List.reverse_append, List.reverse_append, List.reverse_cons,
      List.reverse_cons, List.append_assoc, List.append_assoc] at hd
    have hparts := diverge_append hne t.reverse l.reverse r.reverse
    obtain ⟨rfl, rfl, -⟩ : a = x ∧ b = y ∧ _ := by
      simpa using hparts.symm.trans hd
    have hx' := hx.length_le
    have hy' := hy.length_le
    rw [B.childSize] at hlong
    omega

theorem samePath_or_partAtLongSuffix {inner : InnerSpec} {R : Rules}
    (B : BinaryShape inner R.slots) (inj : Set.InjOn H.sha S) {root : Bytes}
    {left right : ExistenceProof} (hl : left.opening.Valid R H S root)
    (hr : right.opening.Valid R H S root)
    (h : ¬ R.slots.PartPlaced (left.path.map InnerOp.cut) (right.path.map InnerOp.cut)) :
    SamePath left.path right.path ∨ PartAtLongSuffix inner left.path right.path := by
  cases hd : diverge left.opening.cuts.reverse right.opening.cuts.reverse with
  | none => exact .inl (hl.eq_of_diverge_eq_none inj hr hd).1
  | some parts =>
    obtain ⟨a, b, l, r⟩ := parts
    obtain ⟨t, hleft, hright, hne⟩ := diverge_eq_some hd
    rw [List.reverse_eq_append_iff, List.reverse_cons, List.append_assoc] at hleft hright
    refine .inr ⟨l.reverse, r.reverse, t.reverse, a, b, hleft, hright, hne, ?_⟩
    by_contra hshort
    rw [B.childSize, not_or, not_lt, not_lt, Nat.cast_le, Nat.cast_le] at hshort
    obtain ⟨ha, hb⟩ := hl.placed_of_diverge inj hr hd hshort.1 hshort.2
    exact h ⟨a, b, l, r, hd, ha, hb⟩

/-! ### Non-membership -/

section Follows

variable {spec : ProofSpec} {inner : InnerSpec} {R : Rules} (F : Follows spec inner R)
  {root key : Bytes} {proof : Option CommitmentProof}

include F

theorem panics_of_jams (h : Jams H spec root proof key) :
    ∃ q, (verifyNonMembership H spec root proof key).out = .panic q := by
  obtain ⟨non, inner', left, right, hproof, hinner, hleft, hright, hl, hr, hgt, hlt, hpaths⟩ := h
  obtain rfl := Option.some.inj (F.innerSpec.symm.trans hinner)
  have hpanic : ¬ NoPanic (isLeftNeighbor (some inner) left.path right.path) := by
    rw [isLeftNeighbor_noPanic_iff F.shape]
    exact not_partPlaced F.shape hpaths
  obtain ⟨q, hq⟩ : ∃ q, isLeftNeighbor (some inner) left.path right.path = .panic q := by
    simpa [Outcome.NoPanic] using hpanic
  have hends : (non.verify H spec root key).Ends (.panic q) Set.univ :=
    (NonExistenceProof.verify_ends_panic F).2 ⟨left, hleft, right, hright, yields_univ_iff.2 hl,
      yields_univ_iff.2 hr, yields_univ_iff.2 hgt, yields_univ_iff.2 hlt, hq⟩
  exact ⟨q, (verifyNonMembership_ends_panic.2 ⟨non, hproof, hends⟩).1⟩

/-- Without a collision, only proofs that jam make it panic. -/
theorem returns_of_not_jams (h : ¬ Jams H spec root proof key) :
    (verifyNonMembership H spec root proof key).Returns ∨
      H.ShaCollision {q | q ∈ (verifyNonMembership H spec root proof key).log} := by
  rcases verifyNonMembership_returns_or_panic H spec root proof key with hb | ⟨q, hq⟩
  · exact .inl hb
  · refine .inr ?_
    by_contra unique
    apply h
    obtain ⟨non, hproof, hnon⟩ := verifyNonMembership_ends_panic.1 ⟨hq, fun _ hm => hm⟩
    obtain ⟨left, hleft, right, hright, hl, hr, hgt, hlt, hpanic⟩ :=
      (NonExistenceProof.verify_ends_panic F).1 hnon
    have hvl := (ExistenceProof.valid_of_verify F hl).2.2.2
    have hvr := (ExistenceProof.valid_of_verify F hr).2.2.2
    have hparts :
        ¬ R.slots.PartPlaced (left.path.map InnerOp.cut) (right.path.map InnerOp.cut) := by
      rw [← isLeftNeighbor_noPanic_iff F.shape]
      exact fun hno => hno q hpanic
    exact ⟨non, inner, left, right, hproof, F.innerSpec, hleft, hright, hl.out_eq, hr.out_eq,
      hgt.out_eq, hlt.out_eq,
      samePath_or_partAtLongSuffix F.shape (H.injOn_sha unique) hvl hvr hparts⟩

end Follows

variable (H)

/-- Under each built-in spec, verification returns exactly if the proof does not jam, but for runs
in which two strings collide. -/
theorem verifyNonMembership_returns_iff (spec : BuiltIn) (root : Bytes)
    (proof : Option CommitmentProof) (key : Bytes) :
    let run := verifyNonMembership H spec.goSpec root proof key
    ((∃ b, run.out = .ok b) ∨ H.ShaCollision {q | q ∈ run.log}) ↔
      (¬ Jams H spec.goSpec root proof key ∨ H.ShaCollision {q | q ∈ run.log}) :=
  Logged.returns_or_iff (panics_of_jams spec.follows) (returns_of_not_jams spec.follows)

/-! ### Proofs that jam -/

/-- A proof of one leaf with a single step. -/
def oneStep (f : LeafFormat) (leafPrefix key prefix_ suffix : Bytes) : ExistenceProof where
  key := some key
  value := [7]
  leaf := some (leafOp f leafPrefix)
  path := [{ hash := 1, prefix_ := prefix_, suffix := some suffix }]

/-- The digest of the leaf. -/
def leafDigest (f : LeafFormat) (leafPrefix key : Bytes) : Bytes :=
  H.sha (f.message H leafPrefix key [7])

/-- Two leaves below a string that goes on with `extra` after the right child, and the root. -/
def overlong (f : LeafFormat) (leafPrefix header between extra leftKey key rightKey : Bytes) :
    NonExistenceProof × Bytes :=
  let left := leafDigest H f leafPrefix leftKey
  let right := leafDigest H f leafPrefix rightKey
  ({ key := key
     left := oneStep f leafPrefix leftKey header (between ++ right ++ extra)
     right := oneStep f leafPrefix rightKey (header ++ left ++ between) extra },
    H.sha (header ++ left ++ between ++ right ++ extra))

/-- Under the IAVL and SMT specs, a step with one slot too many fits no branch; under the Tendermint
spec, two readings of one leaf have the same empty path.  No two strings collide. -/
theorem builtIn_panics :
    let H := HostFunctionsProvider.sha256Only
    let iavl := overlong H iavlRules.leaves [0, 2, 2] [2, 4, 2, 0x20] [0x20] (List.replicate 33 0)
      [1] [2] [3]
    let smt := overlong H smtRules.leaves [0] [1] [] (List.replicate 32 0) [3] [1] [2]
    let leaf (prefix_ key : Bytes) : ExistenceProof :=
      { key := some key, value := [7], leaf := some (leafOp tendermintRules.leaves prefix_)
        path := [] }
    let tendermint : NonExistenceProof :=
      { key := [2], left := leaf [0] [1, 0x61], right := leaf [0, 2] [0x61] }
    let run (spec : ProofSpec) (root : Bytes) (non : NonExistenceProof) :=
      verifyNonMembership H spec root (some (.nonexist (some non))) non.key
    let iavlRun := run iavlSpec iavl.2 iavl.1
    let smtRun := run smtSpec smt.2 smt.1
    let tendermintRun := run tendermintSpec
      (leafDigest H tendermintRules.leaves [0] [1, 0x61]) tendermint
    (iavlRun.out = .panic (.raised "cannot find any valid spacing for this node") ∧
      ¬ H.ShaCollision {q | q ∈ iavlRun.log}) ∧
    (smtRun.out = .panic (.raised "cannot find any valid spacing for this node") ∧
      ¬ H.ShaCollision {q | q ∈ smtRun.log}) ∧
    (tendermintRun.out = .panic .outOfRange ∧ ¬ H.ShaCollision {q | q ∈ tendermintRun.log}) := by
  refine ⟨HostFunctionsProvider.out_and_not_shaCollision _ ?_,
    HostFunctionsProvider.out_and_not_shaCollision _ ?_,
    HostFunctionsProvider.out_and_not_shaCollision _ ?_⟩
  all_goals decide +kernel

end Ics23.Go
