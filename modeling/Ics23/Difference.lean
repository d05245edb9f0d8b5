import Ics23.Agreement
import Ics23.Go.Exact
import Ics23.Go.Calculate
import Ics23.Go.Pb

/-!
# Where the two verifiers differ

The Rust crate accepts all that the Go module accepts under a built-in spec.  What it accepts
besides are existence and non-existence proofs with an existence proof in them that fails
`Go.Extra`, and batches, compressed or not, into which the Go module does not look
(`go_accepts_iff`).
-/

namespace Ics23

open Outcome Logged

namespace Rust.Implements

variable {H : HostFunctionsProvider} {P : Prost} {S : Set Bytes} {spec : ProofSpec}
  {inner : InnerSpec} {R : Rules} (I : Implements P spec inner R)

include I

/-- Which existence proofs the Rust crate accepts. -/
theorem verifyMembership_exist_iff {ex : ExistenceProof} {root key value : Bytes} :
    (verifyMembership H P (.exist ex) spec root key value).Yields true S ↔
      Canonical R.leaves ex ∧ ex.key = key ∧ ex.value = value ∧ ex.opening.Valid R H S root := by
  rw [← I.verifyExistence_yields]
  exact yields_isOk_unit

/-- Which non-existence proofs the Rust crate accepts. -/
theorem verifyNonMembership_nonexist_iff {non : NonExistenceProof} {root key : Bytes} :
    (verifyNonMembership H P (.nonexist non) spec root key).Yields true S ↔
      (∀ ex ∈ non.left, Canonical R.leaves ex) ∧ (∀ ex ∈ non.right, Canonical R.leaves ex) ∧
        Refutes R H S root key (non.left.map ExistenceProof.opening)
          (non.right.map ExistenceProof.opening) := by
  constructor
  · intro h
    unfold verifyNonMembership at h
    rw [withDecompressed_eq rfl] at h
    obtain ⟨found, hfound, h⟩ := yields_bind.1 h
    cases found with
    | none => simp at h
    | some n =>
      obtain ⟨b, -, hb⟩ := yields_bind.1 hfound
      cases b with
      | false => simp at hb
      | true =>
        obtain rfl : non = n := by simpa using hb
        exact I.verifyNonExistence_yields.1 (yields_isOk_unit.1 h)
  · rintro ⟨hl, hr, h⟩
    exact I.verifyNonMembership_nonexist hl hr h

end Rust.Implements

namespace Go

theorem ExistenceProof.canonical_toRust_iff {f : LeafFormat} {p : ExistenceProof} :
    Rust.Canonical f p.toRust ↔ Canonical f p := by
  refine ⟨fun h => ⟨h.leaf, ?_⟩, Canonical.toRust⟩
  exact List.forall_mem_map.1 h.path

theorem NonExistenceProof.canonical_toRust_iff {f : LeafFormat} {side : Option ExistenceProof} :
    (∀ ex ∈ side.map ExistenceProof.toRust, Rust.Canonical f ex) ↔ ∀ ex ∈ side, Canonical f ex := by
  rw [Option.forall_mem_map]
  exact forall₂_congr fun _ _ => ExistenceProof.canonical_toRust_iff

end Go

/-! ### All proofs -/

namespace Go

/-- A nil pointer in a oneof is written as nothing, and so there is no entry. -/
def BatchEntry.toRust : BatchEntry → Rust.BatchEntry
  | .exist (some ex) => .exist ex.toRust
  | .nonexist (some non) => .nonexist non.toRust
  | _ => .none

def CompressedExistenceProof.toRust (p : CompressedExistenceProof) :
    Rust.CompressedExistenceProof where
  key := p.key
  value := p.value
  leaf := p.leaf
  path := p.path

def CompressedNonExistenceProof.toRust (p : CompressedNonExistenceProof) :
    Rust.CompressedNonExistenceProof where
  key := p.key
  left := p.left.map CompressedExistenceProof.toRust
  right := p.right.map CompressedExistenceProof.toRust

def CompressedBatchEntry.toRust : CompressedBatchEntry → Rust.CompressedBatchEntry
  | .exist (some ex) => .exist ex.toRust
  | .nonexist (some non) => .nonexist non.toRust
  | _ => .none

/-- The same proof in the Rust crate. -/
def Pb.CommitmentProof.toRust : Pb.CommitmentProof → Rust.CommitmentProof
  | .exist (some ex) => .exist ex.toRust
  | .nonexist (some non) => .nonexist non.toRust
  | .batch (some b) => .batch ⟨b.entries.map BatchEntry.toRust⟩
  | .compressed (some c) =>
    .compressed ⟨c.entries.map CompressedBatchEntry.toRust, c.lookupInners.map InnerOp.toRust⟩
  | _ => .none

end Go

variable (H : HostFunctionsProvider) (P : Rust.Prost)

theorem Go.verifyMembership_exist_iff (spec : BuiltIn) {ex : Go.ExistenceProof}
    {root key value : Bytes} {S : Set Bytes} :
    (ex.verify H spec.goSpec root key value).Yields () S ↔
      (Rust.verifyMembership H P (.exist ex.toRust) spec.rustSpec root key value).Yields true S ∧
        Go.Extra spec ex := by
  rw [Go.ExistenceProof.verify_yields spec.follows, Go.ExistenceProof.checkAgainstSpec_iff,
    (spec.implements P).verifyMembership_exist_iff, Go.ExistenceProof.canonical_toRust_iff,
    Go.ExistenceProof.opening_toRust]
  constructor
  · rintro ⟨⟨hc, -, -, hextra⟩, hkey, hvalue, hvalid⟩
    exact ⟨⟨hc, hkey, hvalue, hvalid⟩, hextra⟩
  · rintro ⟨⟨hc, hkey, hvalue, hvalid⟩, hextra⟩
    exact ⟨⟨hc, hvalid.leafPrefix, hvalid.cutsOk, hextra⟩, hkey, hvalue, hvalid⟩

theorem Go.verifyNonMembership_nonexist_iff (spec : BuiltIn) {non : Go.NonExistenceProof}
    {root key : Bytes} {S : Set Bytes} :
    (non.verify H spec.goSpec root key).Yields () S ↔
      (Rust.verifyNonMembership H P (.nonexist non.toRust) spec.rustSpec root key).Yields true S ∧
        (∀ ex ∈ non.left, Go.Extra spec ex) ∧ ∀ ex ∈ non.right, Go.Extra spec ex := by
  have hleft : non.toRust.left = non.left.map Go.ExistenceProof.toRust := rfl
  have hright : non.toRust.right = non.right.map Go.ExistenceProof.toRust := rfl
  rw [Go.NonExistenceProof.verify_yields spec.follows,
    (spec.implements P).verifyNonMembership_nonexist_iff, hleft, hright,
    Go.NonExistenceProof.canonical_toRust_iff, Go.NonExistenceProof.canonical_toRust_iff,
    Go.NonExistenceProof.map_opening_toRust, Go.NonExistenceProof.map_opening_toRust]
  simp only [Go.ExistenceProof.checkAgainstSpec_iff]
  constructor
  · rintro ⟨hl, hr, h⟩
    exact ⟨⟨fun ex hex => (hl ex hex).1, fun ex hex => (hr ex hex).1, h⟩,
      fun ex hex => (hl ex hex).2.2.2, fun ex hex => (hr ex hex).2.2.2⟩
  · rintro ⟨⟨hl, hr, h⟩, hlextra, hrextra⟩
    have hvl := Option.forall_mem_map.1 h.left_valid
    have hvr := Option.forall_mem_map.1 h.right_valid
    exact ⟨fun ex hex => ⟨hl ex hex, (hvl ex hex).leafPrefix, (hvl ex hex).cutsOk, hlextra ex hex⟩,
      fun ex hex => ⟨hr ex hex, (hvr ex hex).leafPrefix, (hvr ex hex).cutsOk, hrextra ex hex⟩, h⟩

/-- The Go module accepts a proof if and only if it holds an existence, or a non-existence proof,
the Rust crate accepts it, and every existence proof in it has what the Go module asks for on
top. -/
theorem go_accepts_iff (spec : BuiltIn) (m : Go.Pb.CommitmentProof) (root key value : Bytes) :
    ((Go.verifyMembership H spec.goSpec root (some m.toProof) key value).out = .ok true ↔
      m.toProof.getExist ≠ none ∧
        (Rust.verifyMembership H P m.toRust spec.rustSpec root key value).out = .ok true ∧
        ∀ ex ∈ m.toProof.embedded, Go.Extra spec ex) ∧
    ((Go.verifyNonMembership H spec.goSpec root (some m.toProof) key).out = .ok true ↔
      m.toProof.getNonexist ≠ none ∧
        (Rust.verifyNonMembership H P m.toRust spec.rustSpec root key).out = .ok true ∧
        ∀ ex ∈ m.toProof.embedded, Go.Extra spec ex) := by
  simp only [← yields_univ_iff, Go.verifyMembership_yields_true,
    Go.verifyNonMembership_yields_true, Option.some.injEq]
  constructor
  · rcases m with (_ | ex) | (_ | non) | _ | _ | _
    case exist.some =>
      simp [Go.verifyMembership_exist_iff H P, Go.Pb.CommitmentProof.toProof,
        Go.Pb.CommitmentProof.toRust, Go.CommitmentProof.embedded, Go.CommitmentProof.getExist]
    -- the Go module finds no existence proof in the other ones
    all_goals simp [Go.Pb.CommitmentProof.toProof, Go.CommitmentProof.getExist]
  · rcases m with (_ | ex) | (_ | non) | _ | _ | _
    case nonexist.some =>
      simp [Go.verifyNonMembership_nonexist_iff H P, Go.Pb.CommitmentProof.toProof,
        Go.Pb.CommitmentProof.toRust, Go.CommitmentProof.embedded, Go.CommitmentProof.getNonexist,
        or_imp, forall_and]
    all_goals simp [Go.Pb.CommitmentProof.toProof, Go.CommitmentProof.getNonexist]

end Ics23
