import Ics23.Difference
import Ics23.Lib.Balanced

/-!
# Honest proofs in both implementations

An honest prover opens the leaf of a key, or the nearest leaves on both sides of an absent one.
The Rust crate accepts what it sends for every Tendermint tree, as for the other kinds of trees.
The Go module accepts it as long as the paths are no longer than it allows, and not beyond that
(`Go.verifyMembership_honest_iff`, `Go.verifyNonMembership_honest_iff`).  A balanced IAVL tree has
no path of that length.
-/

namespace Ics23

open Outcome Logged

variable {E N L : Type}

/-! ### Honest proofs of the Go module -/

namespace Go

/-- The inner op of a cut.  A suffix without bytes is nil, as it is after decoding. -/
def honestStep (c : Cut) : InnerOp where
  hash := 1
  prefix_ := c.1
  suffix := if c.2 = [] then none else some c.2

/-- The proof that makes the claim of an opening. -/
def honestProof (f : LeafFormat) (o : Opening) : ExistenceProof where
  key := some o.key
  value := o.value
  leaf := some (leafOp f o.prefix_)
  path := o.cuts.map honestStep

theorem cut_honestStep (c : Cut) : (honestStep c).cut = c := by
  unfold honestStep InnerOp.cut
  split_ifs with h
  · exact Prod.ext rfl h.symm
  · rfl

theorem opening_honestProof (f : LeafFormat) (o : Opening) : (honestProof f o).opening = o := by
  have hcuts : (o.cuts.map honestStep).map InnerOp.cut = o.cuts := by
    rw [List.map_map]
    exact (List.map_congr_left fun c _ => cut_honestStep c).trans o.cuts.map_id
  unfold honestProof ExistenceProof.opening
  rw [hcuts]
  rfl

theorem canonical_honestProof (f : LeafFormat) (o : Opening) : Canonical f (honestProof f o) where
  leaf := ⟨o.prefix_, rfl⟩
  path := by
    intro op hop
    obtain ⟨c, -, rfl⟩ := List.mem_map.1 hop
    rfl

section Honest

variable (F : TreeFormat E N L) (H : HostFunctionsProvider) (T : BinTree E N L)

/-- The existence proof of a leaf, given with its path. -/
def honestExistence (p : List Side × L) : ExistenceProof := honestProof F.leaves (F.opening H T p)

/-- The existence proofs of the leaf with the greatest smaller key and of the one with the least
greater key, whichever exist. -/
def honestNonExistence (key : Bytes) : NonExistenceProof where
  key := key
  left := (T.nearestBelow (F.treeKey H) (F.leaves.treeKey H key)).map (honestExistence F H T)
  right := (T.nearestAbove (F.treeKey H) (F.leaves.treeKey H key)).map (honestExistence F H T)

end Honest

end Go

/-! ### Acceptance by the Go module -/

section Accepted

variable {H : HostFunctionsProvider} {spec : BuiltIn} {F : TreeFormat E N L} {T : BinTree E N L}
  (M : F.Matches H spec.rules)
  (valid : ∀ p : List Side × L, T.leafAt p.1 = some p.2 →
    (F.opening H T p).Valid spec.rules H Set.univ (F.root H T))
  (leafExtra : ∀ l ∈ T.leaves, spec.LeafExtra (F.header l))
  (stepExtra : ∀ ds, ∀ c ∈ (F.nodes H).cuts H.sha T ds, spec.StepExtra (Go.honestStep c))

include leafExtra stepExtra in
/-- An honest proof has what the Go module asks for, unless it is too long. -/
theorem Go.extra_honestExistence_iff {p : List Side × L} (hp : T.leafAt p.1 = some p.2) :
    Extra spec (honestExistence F H T p) ↔ p.1.length ≤ spec.maxDepth := by
  have hlength : (honestExistence F H T p).path.length = p.1.length := by
    show (((F.nodes H).cuts H.sha T p.1).map honestStep).length = _
    rw [List.length_map, NodeFormat.length_cuts hp]
  constructor
  · intro h
    rw [← hlength]
    exact h.depth
  · intro h
    refine ⟨hlength ▸ h, ?_, ?_⟩
    · unfold honestExistence
      rw [opening_honestProof]
      exact leafExtra p.2 (BinTree.mem_leaves_of_leafAt hp)
    · exact List.forall_mem_map.2 (stepExtra p.1)

include M valid leafExtra stepExtra

/-- The check of the spec passes for honest proofs that are not too long. -/
theorem Go.checkAgainstSpec_honest_iff {p : List Side × L} (hp : T.leafAt p.1 = some p.2) :
    (honestExistence F H T p).checkAgainstSpec spec.goSpec = .ok () ↔
      p.1.length ≤ spec.maxDepth := by
  have hvalid := valid p hp
  rw [ExistenceProof.checkAgainstSpec_iff, extra_honestExistence_iff leafExtra stepExtra hp]
  have hopening : (honestExistence F H T p).opening = F.opening H T p := opening_honestProof _ _
  rw [hopening]
  constructor
  · rintro ⟨-, -, -, h⟩
    exact h
  · intro h
    refine ⟨?_, hvalid.leafPrefix, hvalid.cutsOk, h⟩
    rw [M.leaves_eq]
    exact canonical_honestProof _ _

/-- The honest existence proof of a leaf is accepted unless the leaf is too deep. -/
theorem Go.verifyMembership_honest_iff {p : List Side × L} (hp : T.leafAt p.1 = some p.2) :
    (verifyMembership H spec.goSpec (F.root H T) (some (.exist (some (honestExistence F H T p))))
      (F.key p.2) (F.value p.2)).out = .ok true ↔ p.1.length ≤ spec.maxDepth := by
  have hopening : (honestExistence F H T p).opening = F.opening H T p := opening_honestProof _ _
  rw [← yields_univ_iff, verifyMembership_yields_true]
  simp only [Option.some.injEq, CommitmentProof.exist.injEq, exists_eq_left',
    ExistenceProof.verify_yields spec.follows,
    checkAgainstSpec_honest_iff M valid leafExtra stepExtra hp]
  rw [hopening]
  exact and_iff_left ⟨rfl, rfl, valid p hp⟩

/-- The honest non-existence proof of an absent key is accepted unless one of the nearest leaves is
too deep. -/
theorem Go.verifyNonMembership_honest_iff (sorted : F.Sorted H T) (nonempty : T.leaves ≠ [])
    (fits : spec.rules.slots.Fits (F.nodes H) H.sha T) {key : Bytes}
    (absent : ∀ l ∈ T.leaves, F.treeKey H l ≠ F.leaves.treeKey H key) :
    (verifyNonMembership H spec.goSpec (F.root H T)
      (some (.nonexist (some (honestNonExistence F H T key)))) key).out = .ok true ↔
      (∀ p ∈ T.nearestBelow (F.treeKey H) (F.leaves.treeKey H key), p.1.length ≤ spec.maxDepth) ∧
      (∀ p ∈ T.nearestAbove (F.treeKey H) (F.leaves.treeKey H key),
        p.1.length ≤ spec.maxDepth) := by
  have opening (x : Option (List Side × L)) :
      (x.map (honestExistence F H T)).map ExistenceProof.opening = x.map (F.opening H T) := by
    cases x with
    | none => rfl
    | some p => exact congrArg some (opening_honestProof _ _)
  have hcheck {p : List Side × L} (hp : T.leafAt p.1 = some p.2) :=
    checkAgainstSpec_honest_iff M valid leafExtra stepExtra hp
  have hrefutes := M.refutes_nearest sorted nonempty fits valid (fun _ => Set.mem_univ key) absent
  rw [← yields_univ_iff, verifyNonMembership_yields_true]
  simp only [Option.some.injEq, CommitmentProof.nonexist.injEq, exists_eq_left',
    NonExistenceProof.verify_yields spec.follows, honestNonExistence, Option.forall_mem_map,
    opening]
  rw [and_iff_left hrefutes]
  refine and_congr (forall₂_congr fun p hp => ?_) (forall₂_congr fun p hp => ?_)
  · exact hcheck (BinTree.nearestBelow_spec hp).1
  · exact hcheck (BinTree.nearestAbove_spec hp).1

end Accepted

/-! ### IAVL trees -/

variable (H : HostFunctionsProvider)

theorem iavl_leafExtra (l : IavlLeaf) : BuiltIn.iavl.LeafExtra (iavlFormat.header l) := by
  have hread := l.readHeader_header []
  rw [List.append_nil] at hread
  exact ⟨_, _, hread⟩

/-- The Go module accepts an honest proof of an IAVL tree if and only if no leaf that it opens is
deeper than 128. -/
theorem Go.iavl_complete_iff (T : IavlTree) (shape : IavlShape T) (leaves : IavlLeaves T)
    (sorted : T.Sorted IavlLeaf.key) :
    (∀ p : List Side × IavlLeaf, T.leafAt p.1 = some p.2 →
      ((verifyMembership H iavlSpec (iavlFormat.root H T)
        (some (.exist (some (honestExistence iavlFormat H T p)))) p.2.key p.2.value).out =
          .ok true ↔ p.1.length ≤ 128)) ∧
    (∀ key, (∀ l ∈ T.leaves, l.key ≠ key) →
      ((verifyNonMembership H iavlSpec (iavlFormat.root H T)
        (some (.nonexist (some (honestNonExistence iavlFormat H T key)))) key).out = .ok true ↔
          (∀ p ∈ T.nearestBelow IavlLeaf.key key, p.1.length ≤ 128) ∧
          (∀ p ∈ T.nearestAbove IavlLeaf.key key, p.1.length ≤ 128))) := by
  have M : iavlFormat.Matches H BuiltIn.iavl.rules := iavlFormat_matches H
  have valid (p : List Side × IavlLeaf) (hp : T.leafAt p.1 = some p.2) :
      (iavlFormat.opening H T p).Valid iavlRules H Set.univ (iavlFormat.root H T) :=
    iavl_valid_opening shape leaves hp
  refine ⟨fun p hp => ?_, fun key absent => ?_⟩
  · exact verifyMembership_honest_iff M valid (fun l _ => iavl_leafExtra l)
      (fun _ _ _ => trivial) hp
  · exact verifyNonMembership_honest_iff M valid (fun l _ => iavl_leafExtra l)
      (fun _ _ _ => trivial) sorted T.leaves_ne_nil (iavl_fits shape) absent

theorem Go.iavlPair_complete_iff :
    let present := honestExistence iavlFormat .sha256Only iavlPair
      ([.left], ⟨1, [1], [10], by decide, by decide⟩)
    let absent := honestNonExistence iavlFormat .sha256Only iavlPair [2]
    ((verifyMembership .sha256Only iavlSpec (iavlFormat.root .sha256Only iavlPair)
      (some (.exist (some present))) [1] [10]).out = .ok true ↔ 1 ≤ 128) ∧
    ((verifyNonMembership .sha256Only iavlSpec (iavlFormat.root .sha256Only iavlPair)
      (some (.nonexist (some absent))) [2]).out = .ok true ↔
        (∀ p ∈ iavlPair.nearestBelow IavlLeaf.key [2], p.1.length ≤ 128) ∧
        (∀ p ∈ iavlPair.nearestAbove IavlLeaf.key [2], p.1.length ≤ 128)) := by
  have complete :=
    iavl_complete_iff .sha256Only iavlPair iavlPair_shape iavlPair_leaves iavlPair_sorted
  exact ⟨complete.1 ([.left], ⟨1, [1], [10], by decide, by decide⟩) rfl,
    complete.2 [2] (by decide)⟩

/-- In a balanced IAVL tree with fewer leaves than a size can count, no leaf is that deep: the Go
module accepts all honest proofs. -/
theorem Go.iavl_balanced_complete (T : IavlTree) (shape : IavlShape T) (leaves : IavlLeaves T)
    (sorted : T.Sorted IavlLeaf.key) (balanced : T.Balanced) (few : T.leaves.length < 2 ^ 63) :
    (∀ p : List Side × IavlLeaf, T.leafAt p.1 = some p.2 →
      (verifyMembership H iavlSpec (iavlFormat.root H T)
        (some (.exist (some (honestExistence iavlFormat H T p)))) p.2.key p.2.value).out =
          .ok true) ∧
    (∀ key, (∀ l ∈ T.leaves, l.key ≠ key) →
      (verifyNonMembership H iavlSpec (iavlFormat.root H T)
        (some (.nonexist (some (honestNonExistence iavlFormat H T key)))) key).out = .ok true) := by
  have M : iavlFormat.Matches H BuiltIn.iavl.rules := iavlFormat_matches H
  have valid (p : List Side × IavlLeaf) (hp : T.leafAt p.1 = some p.2) :
      (iavlFormat.opening H T p).Valid iavlRules H Set.univ (iavlFormat.root H T) :=
    iavl_valid_opening shape leaves hp
  have shallow {ds : List Side} {l : IavlLeaf} (hl : T.leafAt ds = some l) : ds.length ≤ 128 := by
    have hfib : 2 ^ 63 ≤ Nat.fib (91 + 2) := by norm_num
    have hlength := balanced.length_lt (lt_of_lt_of_le few hfib) hl
    omega
  refine ⟨fun p hp => ?_, fun key absent => ?_⟩
  · exact (verifyMembership_honest_iff M valid (fun l _ => iavl_leafExtra l)
      (fun _ _ _ => trivial) hp).2 (shallow hp)
  · refine (verifyNonMembership_honest_iff M valid (fun l _ => iavl_leafExtra l)
      (fun _ _ _ => trivial) sorted T.leaves_ne_nil (iavl_fits shape) absent).2 ⟨?_, ?_⟩
    · exact fun p hp => shallow (BinTree.nearestBelow_spec hp).1
    · exact fun p hp => shallow (BinTree.nearestAbove_spec hp).1

theorem Go.iavlPair_balanced_complete :
    (verifyMembership .sha256Only iavlSpec (iavlFormat.root .sha256Only iavlPair)
      (some (.exist (some (honestExistence iavlFormat .sha256Only iavlPair
        ([.left], ⟨1, [1], [10], by decide, by decide⟩))))) [1] [10]).out = .ok true ∧
    (verifyNonMembership .sha256Only iavlSpec (iavlFormat.root .sha256Only iavlPair)
      (some (.nonexist (some (honestNonExistence iavlFormat .sha256Only iavlPair [2])))) [2]).out =
        .ok true := by
  have balanced : iavlPair.Balanced := ⟨⟨by decide, by decide⟩, trivial, trivial⟩
  have complete := iavl_balanced_complete .sha256Only iavlPair iavlPair_shape iavlPair_leaves
    iavlPair_sorted balanced (by decide)
  exact ⟨complete.1 ([.left], ⟨1, [1], [10], by decide, by decide⟩) rfl,
    complete.2 [2] (by decide)⟩

/-! ### Sparse trees -/

/-- The Go module accepts an honest proof of a sparse tree if and only if no leaf that it opens is
deeper than 256; the Rust crate accepts all of them. -/
theorem smt_complete_iff (P : Rust.Prost) (T : SmtTree) (nonempty : T.leaves ≠ [])
    (leaves : PlainLeaves T) (sorted : T.Sorted fun l => H.sha l.key) (shape : SmtShape T) :
    (∀ p : List Side × KeyValue, T.leafAt p.1 = some p.2 →
      (Rust.verifyMembership H P (.exist (Rust.honestExistence smtFormat H T p)) Rust.smtSpec
        (smtFormat.root H T) p.2.key p.2.value).out = .ok true ∧
      ((Go.verifyMembership H Go.smtSpec (smtFormat.root H T)
        (some (.exist (some (Go.honestExistence smtFormat H T p)))) p.2.key p.2.value).out =
          .ok true ↔ p.1.length ≤ 256)) ∧
    (∀ key, (∀ l ∈ T.leaves, H.sha l.key ≠ H.sha key) →
      ((Go.verifyNonMembership H Go.smtSpec (smtFormat.root H T)
        (some (.nonexist (some (Go.honestNonExistence smtFormat H T key)))) key).out = .ok true ↔
          (∀ p ∈ T.nearestBelow (fun l => H.sha l.key) (H.sha key), p.1.length ≤ 256) ∧
          (∀ p ∈ T.nearestAbove (fun l => H.sha l.key) (H.sha key), p.1.length ≤ 256))) := by
  have M : smtFormat.Matches H BuiltIn.smt.rules := smtFormat_matches H
  have valid (p : List Side × KeyValue) (hp : T.leafAt p.1 = some p.2) :
      (smtFormat.opening H T p).Valid smtRules H Set.univ (smtFormat.root H T) :=
    smt_valid_opening leaves hp
  refine ⟨fun p hp => ⟨?_, ?_⟩, fun key absent => ?_⟩
  · exact (Rust.smtSpec_implements P).verifyMembership_honest M valid hp
  · exact Go.verifyMembership_honest_iff M valid (fun _ _ => trivial)
      (fun _ _ _ => trivial) hp
  · exact Go.verifyNonMembership_honest_iff M valid (fun _ _ => trivial)
      (fun _ _ _ => trivial) sorted nonempty (smt_fits shape) absent

theorem smtPair_complete_iff :
    ((Rust.verifyMembership .sha256Only .leb128 (.exist (Rust.honestExistence smtFormat .sha256Only
      smtPair ([.left], ⟨[3], [30]⟩))) Rust.smtSpec (smtFormat.root .sha256Only smtPair) [3]
        [30]).out = .ok true ∧
      ((Go.verifyMembership .sha256Only Go.smtSpec (smtFormat.root .sha256Only smtPair)
        (some (.exist (some (Go.honestExistence smtFormat .sha256Only smtPair
          ([.left], ⟨[3], [30]⟩))))) [3] [30]).out = .ok true ↔ 1 ≤ 256)) ∧
    let sha := HostFunctionsProvider.sha256Only.sha
    ((Go.verifyNonMembership .sha256Only Go.smtSpec (smtFormat.root .sha256Only smtPair)
      (some (.nonexist (some (Go.honestNonExistence smtFormat .sha256Only smtPair [1])))) [1]).out =
        .ok true ↔
        (∀ p ∈ smtPair.nearestBelow (fun l => sha l.key) (sha [1]), p.1.length ≤ 256) ∧
        (∀ p ∈ smtPair.nearestAbove (fun l => sha l.key) (sha [1]), p.1.length ≤ 256)) := by
  have complete := smt_complete_iff .sha256Only .leb128 smtPair (by decide) smtPair_leaves
    smtPair_sorted smtPair_shape
  exact ⟨complete.1 ([.left], ⟨[3], [30]⟩) rfl, complete.2 [1] smtPair_absent⟩

/-! ### Tendermint trees -/

theorem tendermint_valid_opening {T : TendermintTree} (leaves : PlainLeaves T)
    {p : List Side × KeyValue} (hp : T.leafAt p.1 = some p.2) :
    (tendermintFormat.opening H T p).Valid tendermintRules H Set.univ
      (tendermintFormat.root H T) := by
  obtain ⟨hkey, hvalue⟩ := leaves p.2 (BinTree.mem_leaves_of_leafAt hp)
  exact (tendermintFormat_matches H).valid_opening (Set.subset_univ _) hp hkey hvalue ⟨trivial, rfl⟩
    (tendermint_cutsOk T p.1)

/-- A left child has a suffix and the prefix of an inner node; a right child has a longer prefix and
no suffix. -/
theorem tendermint_stepExtra (T : TendermintTree) (ds : List Side) :
    ∀ c ∈ (tendermintFormat.nodes H).cuts H.sha T ds,
      BuiltIn.tendermint.StepExtra (Go.honestStep c) := by
  induction T generalizing ds with
  | empty e => exact e.elim
  | leaf l => simp [NodeFormat.cuts]
  | node n a b iha ihb =>
    rcases ds with _ | ⟨_ | _, ds⟩
    · simp [NodeFormat.cuts]
    · simp only [NodeFormat.cuts, List.mem_append, List.mem_singleton]
      rintro c (hc | rfl)
      · exact iha ds c hc
      · exact ⟨fun _ => rfl, List.prefix_refl _⟩
    · simp only [NodeFormat.cuts, List.mem_append, List.mem_singleton]
      rintro c (hc | rfl)
      · exact ihb ds c hc
      · exact ⟨fun h => absurd rfl h, ⟨(tendermintFormat.nodes H).digest H.sha a, by
          simp [NodeFormat.rightCut, TreeFormat.nodes, tendermintFormat, Go.honestStep]⟩⟩

/-- The Rust crate accepts the honest proofs of every Tendermint tree with sorted keys.  The Go
module accepts them if and only if no leaf that they open is deeper than 128. -/
theorem tendermint_complete_iff (P : Rust.Prost) (T : TendermintTree) (leaves : PlainLeaves T)
    (sorted : T.Sorted KeyValue.key) :
    (∀ p : List Side × KeyValue, T.leafAt p.1 = some p.2 →
      (Rust.verifyMembership H P (.exist (Rust.honestExistence tendermintFormat H T p))
        Rust.tendermintSpec (tendermintFormat.root H T) p.2.key p.2.value).out = .ok true ∧
      ((Go.verifyMembership H Go.tendermintSpec (tendermintFormat.root H T)
        (some (.exist (some (Go.honestExistence tendermintFormat H T p)))) p.2.key p.2.value).out =
          .ok true ↔ p.1.length ≤ 128)) ∧
    (∀ key, (∀ l ∈ T.leaves, l.key ≠ key) →
      (Rust.verifyNonMembership H P (.nonexist (Rust.honestNonExistence tendermintFormat H T key))
        Rust.tendermintSpec (tendermintFormat.root H T) key).out = .ok true ∧
      ((Go.verifyNonMembership H Go.tendermintSpec (tendermintFormat.root H T)
        (some (.nonexist (some (Go.honestNonExistence tendermintFormat H T key)))) key).out =
          .ok true ↔
          (∀ p ∈ T.nearestBelow KeyValue.key key, p.1.length ≤ 128) ∧
          (∀ p ∈ T.nearestAbove KeyValue.key key, p.1.length ≤ 128))) := by
  have M : tendermintFormat.Matches H BuiltIn.tendermint.rules := tendermintFormat_matches H
  have I := Rust.tendermintSpec_implements P
  have valid (p : List Side × KeyValue) (hp : T.leafAt p.1 = some p.2) :
      (tendermintFormat.opening H T p).Valid tendermintRules H Set.univ
        (tendermintFormat.root H T) :=
    tendermint_valid_opening H leaves hp
  refine ⟨fun p hp => ⟨?_, ?_⟩, fun key absent => ⟨?_, ?_⟩⟩
  · exact I.verifyMembership_honest M valid hp
  · exact Go.verifyMembership_honest_iff M valid (fun _ _ => trivial)
      (tendermint_stepExtra H T) hp
  · exact I.verifyNonMembership_honest M valid sorted T.leaves_ne_nil (tendermint_fits T) absent
  · exact Go.verifyNonMembership_honest_iff M valid (fun _ _ => trivial)
      (tendermint_stepExtra H T) sorted T.leaves_ne_nil (tendermint_fits T) absent

/-- A tree with the keys `[1]` and `[3]`. -/
def tendermintPair : TendermintTree := .node () (.leaf ⟨[1], [10]⟩) (.leaf ⟨[3], [30]⟩)

theorem tendermintPair_complete_iff :
    let root := tendermintFormat.root .sha256Only tendermintPair
    ((Rust.verifyMembership .sha256Only .leb128 (.exist (Rust.honestExistence tendermintFormat
      .sha256Only tendermintPair ([.right], ⟨[3], [30]⟩))) Rust.tendermintSpec root [3] [30]).out =
        .ok true ∧
      ((Go.verifyMembership .sha256Only Go.tendermintSpec root
        (some (.exist (some (Go.honestExistence tendermintFormat .sha256Only tendermintPair
          ([.right], ⟨[3], [30]⟩))))) [3] [30]).out = .ok true ↔ 1 ≤ 128)) ∧
    ((Rust.verifyNonMembership .sha256Only .leb128 (.nonexist (Rust.honestNonExistence
      tendermintFormat .sha256Only tendermintPair [4])) Rust.tendermintSpec root [4]).out =
        .ok true ∧
      ((Go.verifyNonMembership .sha256Only Go.tendermintSpec root
        (some (.nonexist (some (Go.honestNonExistence tendermintFormat .sha256Only tendermintPair
          [4])))) [4]).out = .ok true ↔
        (∀ p ∈ tendermintPair.nearestBelow KeyValue.key [4], p.1.length ≤ 128) ∧
        (∀ p ∈ tendermintPair.nearestAbove KeyValue.key [4], p.1.length ≤ 128))) := by
  have leaves : PlainLeaves tendermintPair := by
    unfold PlainLeaves
    decide
  have sorted : tendermintPair.Sorted KeyValue.key := by
    unfold BinTree.Sorted
    decide
  have complete := tendermint_complete_iff .sha256Only .leb128 tendermintPair leaves sorted
  exact ⟨complete.1 ([.right], ⟨[3], [30]⟩) rfl, complete.2 [4] (by decide)⟩

end Ics23
