import Ics23.Go.BuiltIn
import Ics23.Rust.Iavl
import Ics23.Rust.Smt
import Ics23.Rust.Tendermint

/-!
# Rust accepts what Go accepts

Both verifiers follow the same rules under each built-in spec, the Go module asking for more and the
Rust crate for no more.  So a proof that the Go module accepts has valid openings, or openings that
refute the key, and these are all the Rust crate asks for (`rust_accepts_of_go_accepts`).
-/

namespace Ics23

open Logged

/-! ### Specs -/

namespace BuiltIn

/-- The spec of the Rust crate. -/
def rustSpec : BuiltIn → ProofSpec
  | .iavl => Rust.iavlSpec
  | .tendermint => Rust.tendermintSpec
  | .smt => Rust.smtSpec

/-- Its inner spec. -/
def rustInnerSpec : BuiltIn → InnerSpec
  | .iavl => Rust.iavlInnerSpec
  | .tendermint => Rust.tendermintInnerSpec
  | .smt => Rust.smtInnerSpec

theorem implements (P : Rust.Prost) (spec : BuiltIn) :
    Rust.Implements P spec.rustSpec spec.rustInnerSpec spec.rules := by
  cases spec with
  | iavl => exact Rust.iavlSpec_implements P
  | tendermint => exact Rust.tendermintSpec_implements P
  | smt => exact Rust.smtSpec_implements P

end BuiltIn

/-! ### Proofs -/

namespace Go

/-- The same operation in the Rust crate, which has no nil slices. -/
def InnerOp.toRust (op : InnerOp) : Rust.InnerOp where
  hash := op.hash
  prefix_ := op.prefix_
  suffix := op.suffix.bytes

def ExistenceProof.toRust (p : ExistenceProof) : Rust.ExistenceProof where
  key := p.key.bytes
  value := p.value
  leaf := p.leaf
  path := p.path.map InnerOp.toRust

def NonExistenceProof.toRust (p : NonExistenceProof) : Rust.NonExistenceProof where
  key := p.key
  left := p.left.map ExistenceProof.toRust
  right := p.right.map ExistenceProof.toRust

/-- An existence or a non-existence proof in the Rust crate; the Go module accepts nothing else. -/
def CommitmentProof.toRust (p : CommitmentProof) : Rust.CommitmentProof :=
  match p with
  | .exist (some ex) => .exist ex.toRust
  | .nonexist (some non) => .nonexist non.toRust
  | _ => .none

theorem ExistenceProof.opening_toRust (p : ExistenceProof) : p.toRust.opening = p.opening := by
  unfold toRust Rust.ExistenceProof.opening opening
  rw [List.map_map]
  rfl

theorem Canonical.toRust {f : LeafFormat} {p : ExistenceProof} (h : Canonical f p) :
    Rust.Canonical f p.toRust where
  leaf := h.leaf
  path := List.forall_mem_map.2 h.path

theorem NonExistenceProof.map_opening_toRust (side : Option ExistenceProof) :
    (side.map ExistenceProof.toRust).map Rust.ExistenceProof.opening =
      side.map ExistenceProof.opening := by
  rw [Option.map_map]
  exact congrArg (side.map ·) (funext ExistenceProof.opening_toRust)

end Go

variable (H : HostFunctionsProvider) (P : Rust.Prost)

/-- What the Go module accepts under a built-in spec, the Rust crate accepts under its own. -/
theorem rust_accepts_of_go_accepts (spec : BuiltIn) (proof : Go.CommitmentProof)
    (root key value : Bytes) :
    ((Go.verifyMembership H spec.goSpec root (some proof) key value).out = .ok true →
      (Rust.verifyMembership H P proof.toRust spec.rustSpec root key value).out = .ok true) ∧
    ((Go.verifyNonMembership H spec.goSpec root (some proof) key).out = .ok true →
      (Rust.verifyNonMembership H P proof.toRust spec.rustSpec root key).out = .ok true) := by
  constructor
  · intro accepted
    obtain ⟨ex, hproof, hverify⟩ := Go.verifyMembership_yields_true.1 (yields_univ_iff.2 accepted)
    obtain rfl := Option.some.inj hproof
    obtain ⟨hc, rfl, rfl, hvalid⟩ := Go.ExistenceProof.valid_of_verify spec.follows hverify
    rw [← ex.opening_toRust] at hvalid
    exact ((spec.implements P).verifyMembership_exist hc.toRust hvalid).out_eq
  · intro accepted
    obtain ⟨non, hproof, hverify⟩ :=
      Go.verifyNonMembership_yields_true.1 (yields_univ_iff.2 accepted)
    obtain rfl := Option.some.inj hproof
    obtain ⟨hl, hr, hrefutes⟩ := Go.NonExistenceProof.refutes_of_verify spec.follows hverify
    rw [← Go.NonExistenceProof.map_opening_toRust, ← Go.NonExistenceProof.map_opening_toRust]
      at hrefutes
    have hcl : ∀ ex ∈ non.toRust.left, Rust.Canonical spec.rules.leaves ex :=
      Option.forall_mem_map.2 fun ex hex => (hl ex hex).toRust
    have hcr : ∀ ex ∈ non.toRust.right, Rust.Canonical spec.rules.leaves ex :=
      Option.forall_mem_map.2 fun ex hex => (hr ex hex).toRust
    exact ((spec.implements P).verifyNonMembership_nonexist hcl hcr hrefutes).out_eq

/-- The proof of the Go module that makes a given claim. -/
def Go.existenceProof (f : LeafFormat) (o : Opening) : Go.ExistenceProof where
  key := some o.key
  value := o.value
  leaf := some (leafOp f o.prefix_)
  path := o.cuts.map fun c => { hash := 1, prefix_ := c.1, suffix := some c.2 }

/-- The proofs of the key `[1]` and of the absence of the key `[2]` in a tree with the keys `[1]`
and `[3]`. -/
theorem iavlPair_rust_accepts :
    let H := HostFunctionsProvider.sha256Only
    let root := iavlFormat.root H iavlPair
    let left := Go.existenceProof iavlFormat.leaves (iavlFormat.opening H iavlPair
      ([.left], ⟨1, [1], [10], by decide, by decide⟩))
    let right := Go.existenceProof iavlFormat.leaves (iavlFormat.opening H iavlPair
      ([.right], ⟨1, [3], [30], by decide, by decide⟩))
    let present := Go.CommitmentProof.exist (some left)
    let absent := Go.CommitmentProof.nonexist (some { key := [2], left, right })
    (Rust.verifyMembership H .leb128 present.toRust Rust.iavlSpec root [1] [10]).out = .ok true ∧
    (Rust.verifyNonMembership H .leb128 absent.toRust Rust.iavlSpec root [2]).out = .ok true := by
  intro H root left right present absent
  have hpresent : (Go.verifyMembership H Go.iavlSpec root (some present) [1] [10]).out =
      .ok true := by decide +kernel
  have habsent : (Go.verifyNonMembership H Go.iavlSpec root (some absent) [2]).out =
      .ok true := by decide +kernel
  exact ⟨(rust_accepts_of_go_accepts H .leb128 .iavl present root [1] [10]).1 hpresent,
    (rust_accepts_of_go_accepts H .leb128 .iavl absent root [2] []).2 habsent⟩

end Ics23
