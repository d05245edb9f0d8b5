import Ics23.Iavl
import Ics23.Plain
import Ics23.Go.Refinement

/-!
# The built-in specs of the Go module follow rules

`BuiltIn` names the three specs that both implementations have.  Those of the Go module follow the
same rules as those of the Rust crate (`BuiltIn.follows`): its IAVL checks read the same varints
and ask more of leaves, its Tendermint check restricts prefixes further, and its sparse spec only
allows longer paths.
-/

namespace Ics23

/-- The specs that both implementations come with. -/
inductive BuiltIn where
  | iavl
  | tendermint
  | smt
  deriving DecidableEq, Repr

/-- The rules of proofs under the spec. -/
def BuiltIn.rules : BuiltIn → Rules
  | .iavl => iavlRules
  | .tendermint => tendermintRules
  | .smt => smtRules

namespace Go

open Outcome

/-! ### IAVL -/

theorem readVarint_eq_ok {r rest : Bytes} {x : ℤ} :
    readVarint r = .ok (x, rest) ↔ Leb128.decodeSigned r = some (x, rest) := by
  unfold readVarint
  cases Leb128.decodeSigned r with
  | none => split_ifs <;> simp
  | some y => simp

/-- Which prefixes and hashes are valid in a layer, the leaf being layer 0. -/
theorem validateIavlOps_eq_ok {p : Bytes} {hash : Int32} {layerNum : ℤ} :
    validateIavlOps p hash layerNum = .ok () ↔
      ∃ height size version rest, readHeader p = some (height, size, version, rest) ∧
        (0 ≤ height ∧ layerNum ≤ height ∧ 0 ≤ size ∧ 0 ≤ version) ∧
        if layerNum = 0 then rest.length = 0 ∧ height = 0 ∧ size = 1
        else (rest.length = 1 ∨ rest.length = 34) ∧ hash = 1 := by
  unfold validateIavlOps
  simp only [bind_eq_ok, mapErr_eq_ok, readVarint_eq_ok, ensure_eq_ok, Prod.exists,
    readHeader_eq_some]
  constructor
  · rintro ⟨height, r, hheight, _, hlayer, size, r', hsize, _, hsize0, version, rest, hversion, _,
      hversion0, h⟩
    refine ⟨height, size, version, rest, ⟨r, r', hheight, hsize, hversion⟩, by omega, ?_⟩
    split_ifs at h ⊢ <;> simpa only [seq_eq_ok, ensure_eq_ok] using h
  · rintro ⟨height, size, version, rest, ⟨r, r', hheight, hsize, hversion⟩, hbounds, h⟩
    refine ⟨height, r, hheight, (), by omega, size, r', hsize, (), by omega, version, rest,
      hversion, (), by omega, ?_⟩
    split_ifs at h ⊢ <;> simpa only [seq_eq_ok, ensure_eq_ok] using h

/-- The three varints are read, and the rest of the prefix has one of the allowed lengths. -/
theorem iavlPrefix_of_validateIavlOps {p : Bytes} {hash : Int32} {layerNum : ℤ}
    (h : validateIavlOps p hash layerNum = .ok ()) :
    (layerNum = 0 → IavlPrefix layerNum p 0) ∧
      (layerNum ≠ 0 → IavlPrefix layerNum p 1 ∨ IavlPrefix layerNum p 34) := by
  obtain ⟨height, size, version, rest, hread, ⟨-, hlayer, hsize, hversion⟩, h⟩ :=
    validateIavlOps_eq_ok.1 h
  have hpre {n : ℕ} (hn : rest.length = n) : IavlPrefix layerNum p n :=
    ⟨height, size, version, rest, hread, hlayer, hsize, hversion, hn⟩
  constructor
  · intro hzero
    rw [if_pos hzero] at h
    exact hpre h.1
  · intro hzero
    rw [if_neg hzero] at h
    exact h.1.imp hpre hpre

theorem specEquals_iavlSpec : specEquals iavlSpec iavlSpec := by decide

theorem iavlInnerSpec_binary : BinaryShape iavlInnerSpec iavlSlots where
  childOrder := rfl
  childSize := rfl
  minPrefixLength := rfl
  maxPrefixLength := rfl
  emptyChild := rfl

theorem iavlSpec_follows : Follows iavlSpec iavlInnerSpec iavlRules where
  leafSpec := rfl
  innerSpec := rfl
  shape := iavlInnerSpec_binary
  innerHash := rfl
  prehash := rfl
  leafHeader {op} h := by
    have hvalid := ((LeafOp.checkAgainstSpec_eq_ok (f := iavlRules.leaves) rfl).1 h).1
    exact (iavlPrefix_of_validateIavlOps (hvalid specEquals_iavlSpec)).1 rfl
  innerHeader {op layer} hlayer h := by
    obtain ⟨-, hvalid, -⟩ := (InnerOp.checkAgainstSpec_eq_ok iavlInnerSpec_binary rfl rfl).1 h
    exact (iavlPrefix_of_validateIavlOps (hvalid specEquals_iavlSpec)).2 (by omega)

/-! ### Tendermint and sparse trees -/

theorem tendermintSpec_follows : Follows tendermintSpec tendermintInnerSpec tendermintRules where
  leafSpec := rfl
  innerSpec := rfl
  shape := ⟨rfl, rfl, rfl, rfl, rfl⟩
  innerHash := rfl
  prehash := rfl
  leafHeader _ := trivial
  innerHeader _ _ := trivial

theorem smtSpec_follows : Follows smtSpec smtInnerSpec smtRules where
  leafSpec := rfl
  innerSpec := rfl
  shape := ⟨rfl, rfl, rfl, rfl, rfl⟩
  innerHash := rfl
  prehash := rfl
  leafHeader _ := trivial
  innerHeader _ _ := trivial

end Go

/-! ### All three -/

namespace BuiltIn

/-- The spec of the Go module. -/
def goSpec : BuiltIn → ProofSpec
  | .iavl => Go.iavlSpec
  | .tendermint => Go.tendermintSpec
  | .smt => Go.smtSpec

/-- Its inner spec. -/
def goInnerSpec : BuiltIn → InnerSpec
  | .iavl => Go.iavlInnerSpec
  | .tendermint => Go.tendermintInnerSpec
  | .smt => Go.smtInnerSpec

theorem follows (spec : BuiltIn) : Go.Follows spec.goSpec spec.goInnerSpec spec.rules := by
  cases spec with
  | iavl => exact Go.iavlSpec_follows
  | tendermint => exact Go.tendermintSpec_follows
  | smt => exact Go.smtSpec_follows

end BuiltIn

end Ics23
