import Ics23.Difference
import Ics23.Lib.Base64
import Ics23.Rust.SerdeValid

/-!
# Sending proofs

* `CommitmentProof.deserialize_serialize`: which proofs can be written to a format, and that they
  are read back from it.
* `CommitmentProof.serialize_deserialize`: whatever is read from a format can be written to it.
* `accepted_roundTrips`: under a built-in spec, a proof that is accepted can be sent.

`json` is an example of a format that keeps what it is given.
-/

namespace Ics23.Rust.Serde

open Outcome Logged

/-! ## Trees -/

/-- A value of the example format, in the manner of JSON. -/
inductive Value where
  | null
  | bool (b : Bool)
  | num (n : ℤ)
  | str (s : String)
  | seq (vs : List Value)
  | map (es : List (String × Value))

def Value.entries : Value → Result (List (String × Value))
  | .map es => .ok es
  | _ => .err (.format "invalid type, expected a struct")

def Value.elements : Value → Result (List Value)
  | .seq vs => .ok vs
  | _ => .err (.format "invalid type, expected a sequence")

def Value.boolean : Value → Result Bool
  | .bool b => .ok b
  | _ => .err (.format "invalid type, expected a boolean")

def Value.variant : Value → Result (ℤ ⊕ String)
  | .num n => .ok (.inl n)
  | .str s => .ok (.inr s)
  | _ => .err (.format "invalid type, expected a variant")

def Value.number : Value → Result Int32
  | .num n =>
    if InI32 n then .ok (Int32.ofInt n) else .err (.format "invalid value, expected i32")
  | _ => .err (.format "invalid type, expected i32")

def Value.bytes : Value → Result Bytes
  | .str s =>
    match Base64.decode s.toList with
    | some b => .ok b
    | none => .err (.format "invalid base64")
  | _ => .err (.format "invalid type, expected a string")

/-- An example of a format, in which a struct is an object, and bytes are a string of base64.  It is
stricter than the JSON that is in use, where numbers may also stand in strings, and base64 may be
unpadded or of the alphabet for URLs. -/
def json : Format Value where
  struct _ es := .map es
  str := .str
  int x := .num x.toInt
  bool := .bool
  seq := .seq
  entries _ _ := Value.entries
  option v :=
    match v with
    | .null => .ok none
    | v => .ok (some v)
  elements := Value.elements
  boolean := Value.boolean
  variant := Value.variant
  base64 b := String.ofList (Base64.encode b)
  number := Value.number
  bytes := Value.bytes

theorem json_lawful : json.Lawful where
  entries_struct _ _ es _ := ⟨es, rfl, .refl es⟩
  option_struct _ _ := rfl
  elements_seq _ := rfl
  boolean_bool _ := rfl
  variant_str _ := rfl
  number_int x := by
    have hx : InI32 x.toInt := ⟨x.le_toInt, x.toInt_lt⟩
    exact (if_pos hx).trans (congrArg Outcome.ok x.ofInt_toInt)
  bytes_base64 b := by
    have hdecode : Base64.decode (String.ofList (Base64.encode b)).toList = some b := by
      rw [String.toList_ofList, Base64.decode_encode]
    simp only [json, Value.bytes, hdecode]

/-! ## Writing and reading -/

variable {V : Type} {F : Format V}

/-- A proof can be written if and only if its enumeration fields hold numbers of variants, and then
it is read back as it was. -/
theorem CommitmentProof.deserialize_serialize (L : F.Lawful) (m : CommitmentProof) :
    (CommitmentProof.Valid m ↔ ∃ v, CommitmentProof.serialize F m = .ok v) ∧
      ∀ v, CommitmentProof.serialize F m = .ok v → CommitmentProof.deserialize F v = .ok m :=
  ⟨(CommitmentProof.serialize_iff m).symm, fun v h => (CommitmentProof.roundTrips L m v h).2⟩

/-- A proof of a leaf with a key of one byte. -/
def shortProof : CommitmentProof :=
  .exist { key := [1], value := [2], leaf := some (leafOp ⟨false, true⟩ [0]), path := [] }

theorem shortProof_deserialize_serialize :
    (CommitmentProof.Valid shortProof ↔ ∃ v, CommitmentProof.serialize json shortProof = .ok v) ∧
      ∀ v, CommitmentProof.serialize json shortProof = .ok v →
        CommitmentProof.deserialize json v = .ok shortProof :=
  CommitmentProof.deserialize_serialize json_lawful shortProof

/-- A proof that was read can be written. -/
theorem CommitmentProof.serialize_deserialize (v : V) (m : CommitmentProof)
    (h : CommitmentProof.deserialize F v = .ok m) :
    ∃ v', CommitmentProof.serialize F m = .ok v' ∧
      (F.Lawful → CommitmentProof.deserialize F v' = .ok m) := by
  have hvalid := CommitmentProof.valid_of_deserialize v m h
  obtain ⟨v', hv'⟩ := (CommitmentProof.serialize_iff (F := F) m).2 hvalid
  exact ⟨v', hv', fun L => (CommitmentProof.roundTrips L m v' hv').2⟩

theorem keyOnly_serialize_deserialize :
    ∃ v, CommitmentProof.serialize json (.exist ⟨[1], [], none, []⟩) = .ok v ∧
      (json.Lawful → CommitmentProof.deserialize json v = .ok (.exist ⟨[1], [], none, []⟩)) :=
  CommitmentProof.serialize_deserialize (.map [("exist", .map [("key", .str "AQ==")])]) _
    (by decide +kernel)

/-! ## Accepted proofs -/

theorem LeafOp.valid_leafOp (f : LeafFormat) (prefix_ : Bytes) :
    LeafOp.Valid (leafOp f prefix_) := by
  obtain ⟨_ | _, _ | _⟩ := f
  all_goals exact ⟨⟨_, rfl⟩, ⟨_, rfl⟩, ⟨_, rfl⟩, ⟨_, rfl⟩⟩

theorem ExistenceProof.valid_of_canonical {f : LeafFormat} {ex : ExistenceProof}
    (h : Canonical f ex) : ExistenceProof.Valid ex := by
  refine ⟨fun leaf hleaf => ?_, fun op hop => ?_⟩
  · obtain ⟨p, hp⟩ := h.leaf
    obtain rfl : leafOp f p = leaf := Option.some.inj (hp.symm.trans hleaf)
    exact LeafOp.valid_leafOp f p
  · rw [InnerOp.Valid, h.path op hop]
    exact ⟨_, rfl⟩

theorem ProofSpec.valid_rustSpec (spec : BuiltIn) : ProofSpec.Valid spec.rustSpec := by
  have I := spec.implements .leb128
  refine ⟨fun leaf hleaf => ?_, fun inner hinner => ?_⟩
  · rw [I.leafSpec] at hleaf
    obtain rfl := Option.some.inj hleaf
    exact LeafOp.valid_leafOp _ _
  · rw [I.innerSpec] at hinner
    obtain rfl := Option.some.inj hinner
    rw [InnerSpec.Valid, I.innerHash]
    exact ⟨_, rfl⟩

/-- The built-in specs and the proofs that are accepted under them can be sent in any format. -/
theorem accepted_roundTrips (L : F.Lawful) (H : HostFunctionsProvider) (P : Prost)
    (spec : BuiltIn) (root key value : Bytes) :
    (∃ v, ProofSpec.serialize F spec.rustSpec = .ok v ∧
      ProofSpec.deserialize F v = .ok spec.rustSpec) ∧
    (∀ ex, (verifyMembership H P (.exist ex) spec.rustSpec root key value).out = .ok true →
      ∃ v, CommitmentProof.serialize F (.exist ex) = .ok v ∧
        CommitmentProof.deserialize F v = .ok (.exist ex)) ∧
    ∀ non, (verifyNonMembership H P (.nonexist non) spec.rustSpec root key).out = .ok true →
      ∃ v, CommitmentProof.serialize F (.nonexist non) = .ok v ∧
        CommitmentProof.deserialize F v = .ok (.nonexist non) := by
  have I := spec.implements P
  have hproof (m : CommitmentProof) (hm : CommitmentProof.Valid m) :
      ∃ v, CommitmentProof.serialize F m = .ok v ∧ CommitmentProof.deserialize F v = .ok m := by
    obtain ⟨v, hv⟩ := (CommitmentProof.serialize_iff (F := F) m).2 hm
    exact ⟨v, hv, (CommitmentProof.roundTrips L m v hv).2⟩
  refine ⟨?_, fun ex hex => hproof _ ?_, fun non hnon => hproof _ ?_⟩
  · obtain ⟨v, hv⟩ := (ProofSpec.serialize_iff (F := F) _).2 (ProofSpec.valid_rustSpec spec)
    exact ⟨v, hv, (ProofSpec.roundTrips L _ v hv).2⟩
  · exact ExistenceProof.valid_of_canonical
      (I.verifyMembership_exist_iff.1 (yields_univ_iff.2 hex)).1
  · obtain ⟨hl, hr, -⟩ := I.verifyNonMembership_nonexist_iff.1 (yields_univ_iff.2 hnon)
    exact ⟨fun ex hex => ExistenceProof.valid_of_canonical (hl ex hex),
      fun ex hex => ExistenceProof.valid_of_canonical (hr ex hex)⟩

/-- The proofs that a tree of two leaves has the key `[1]` and has not the key `[2]` are accepted,
and they are read back from the example format. -/
theorem iavlPair_accepted_roundTrips :
    let present := CommitmentProof.exist (honestExistence iavlFormat .sha256Only iavlPair
      ([.left], ⟨1, [1], [10], by decide, by decide⟩))
    let absent := CommitmentProof.nonexist (honestNonExistence iavlFormat .sha256Only iavlPair [2])
    (∃ v, CommitmentProof.serialize json present = .ok v ∧
      CommitmentProof.deserialize json v = .ok present) ∧
    ∃ v, CommitmentProof.serialize json absent = .ok v ∧
      CommitmentProof.deserialize json v = .ok absent := by
  intro present absent
  let root := iavlFormat.root .sha256Only iavlPair
  have I := iavlSpec_implements .leb128
  have M := iavlFormat_matches .sha256Only
  have hpresent :
      (verifyMembership .sha256Only .leb128 present iavlSpec root [1] [10]).out = .ok true :=
    I.verifyMembership_honest M iavlPair_valid
      (p := ([.left], ⟨1, [1], [10], by decide, by decide⟩)) rfl
  have habsent :
      (verifyNonMembership .sha256Only .leb128 absent iavlSpec root [2]).out = .ok true :=
    I.verifyNonMembership_honest M iavlPair_valid iavlPair_sorted iavlPair.leaves_ne_nil
      (iavl_fits iavlPair_shape) (by decide)
  obtain ⟨-, hexist, -⟩ := accepted_roundTrips json_lawful .sha256Only .leb128 .iavl root [1] [10]
  obtain ⟨-, -, hnonexist⟩ := accepted_roundTrips json_lawful .sha256Only .leb128 .iavl root [2] []
  exact ⟨hexist _ hpresent, hnonexist _ habsent⟩

end Ics23.Rust.Serde
