import Ics23.Agreement

/-!
# Both implementations compute the same roots

The two implementations apply the same operations, but the Go module knows fewer of them: it has no
KECCAK256 and no BLAKE3, does not take NO_HASH for the hash of a node, and rejects numbers that
stand for no operation, which the Rust crate reads as the default.  On the operations it knows the
two agree (`calculate_eq_ok_iff`).
-/

namespace Ics23

open Logged

/-! ### Operations of the Go module -/

namespace Go

/-- The hash operations that `doHash` implements. -/
def implementsHash (x : Int32) : Bool :=
  match HashOp.ofInt32 x with
  | none | some .noHash | some .keccak256 | some .blake3 => false
  | some _ => true

/-- The hash operations that `doHashOrNoop` implements. -/
def implementsPrehash (x : Int32) : Bool := x = 0 || implementsHash x

/-- The number stands for a length operation, of which neither side implements `VAR_RLP`. -/
def knowsLength (x : Int32) : Bool := (LengthOp.ofInt32 x).isSome

/-- The Go module implements the hash operations of the proof, and knows its length operation. -/
structure Implemented (p : ExistenceProof) : Prop where
  leaf : ∀ leaf ∈ p.leaf, implementsHash leaf.hash ∧ implementsPrehash leaf.prehashKey ∧
    implementsPrehash leaf.prehashValue ∧ knowsLength leaf.length
  path : ∀ op ∈ p.path, implementsHash op.hash

end Go

variable {H : HostFunctionsProvider} {P : Rust.Prost} {S : Set Bytes}

theorem doHash_yields_iff {hashOp : Int32} {data x : Bytes} :
    (Go.doHash H hashOp data).Yields x S ↔
      Go.implementsHash hashOp ∧ (Rust.doHash H (Rust.hashOpOf hashOp) data).Yields x S := by
  unfold Go.doHash Go.implementsHash Rust.hashOpOf
  cases HashOp.ofInt32 hashOp with
  | none => simp
  | some op => cases op <;> simp [Rust.doHash, yields_bind]

theorem doHashOrNoop_yields_iff {hashOp : Int32} {data x : Bytes} :
    (Go.doHashOrNoop H hashOp data).Yields x S ↔
      Go.implementsPrehash hashOp ∧ (Rust.doHash H (Rust.hashOpOf hashOp) data).Yields x S := by
  unfold Go.doHashOrNoop Go.implementsPrehash
  by_cases h : hashOp = 0
  · simp [h, Rust.hashOpOf_zero, Rust.doHash]
  · simp [h, doHash_yields_iff]

theorem doLength_eq_ok_iff {lengthOp : Int32} {data x : Bytes} :
    Go.doLengthOp lengthOp data = .ok x ↔
      Go.knowsLength lengthOp ∧ Rust.doLength P (Rust.lengthOpOf lengthOp) data = .ok x := by
  unfold Go.doLengthOp Go.knowsLength Rust.lengthOpOf
  cases LengthOp.ofInt32 lengthOp with
  | none => simp
  | some op =>
    cases op <;> simp [Rust.doLength, Rust.protoLen, P.encodeVarint_eq, Go.encodeVarintProto_eq,
      Outcome.seq_eq_ok]

theorem prepareLeafData_yields_iff {hashOp lengthOp : Int32} {data x : Bytes} (hdata : data ≠ []) :
    (Go.prepareLeafData H hashOp lengthOp data).Yields x S ↔
      (Go.implementsPrehash hashOp ∧ Go.knowsLength lengthOp) ∧
        (Rust.prepareLeafData H P (Rust.hashOpOf hashOp) (Rust.lengthOpOf lengthOp) data).Yields
          x S := by
  simp only [Go.prepareLeafData, Rust.prepareLeafData, yields_bind, yields_liftM,
    doHashOrNoop_yields_iff, doLength_eq_ok_iff (P := P), Outcome.ensure_eq_ok]
  constructor
  · rintro ⟨h, ⟨hhash, hyields⟩, hlength, hok⟩
    exact ⟨⟨hhash, hlength⟩, (), hdata, h, hyields, hok⟩
  · rintro ⟨⟨hhash, hlength⟩, -, -, h, hyields, hok⟩
    exact ⟨h, ⟨hhash, hyields⟩, hlength, hok⟩

theorem leafApply_yields_iff {leaf : LeafOp} {key value x : Bytes} (hkey : key ≠ [])
    (hvalue : value ≠ []) :
    (Go.LeafOp.apply H leaf key value).Yields x S ↔
      (Go.implementsHash leaf.hash ∧ Go.implementsPrehash leaf.prehashKey ∧
        Go.implementsPrehash leaf.prehashValue ∧ Go.knowsLength leaf.length) ∧
      (Rust.applyLeaf H P leaf key value).Yields x S := by
  simp only [Go.LeafOp.apply, Rust.applyLeaf, yields_bind, yields_liftM, yields_mapErr,
    Outcome.ensure_eq_ok, prepareLeafData_yields_iff (P := P) hkey,
    prepareLeafData_yields_iff (P := P) hvalue, doHash_yields_iff]
  constructor
  · rintro ⟨-, -, -, -, k, ⟨⟨hpre, hlen⟩, hk⟩, v, ⟨⟨hpre', -⟩, hv⟩, hhash, hx⟩
    exact ⟨⟨hhash, hpre, hpre', hlen⟩, k, hk, v, hv, hx⟩
  · rintro ⟨⟨hhash, hpre, hpre', hlen⟩, k, hk, v, hv, hx⟩
    exact ⟨(), hkey, (), hvalue, k, ⟨⟨hpre, hlen⟩, hk⟩, v, ⟨⟨hpre', hlen⟩, hv⟩, hhash, hx⟩

theorem innerApply_yields_iff {op : Go.InnerOp} {child x : Bytes} :
    (op.apply H child).Yields x S ↔
      Go.implementsHash op.hash ∧ (Rust.applyInner H op.toRust child).Yields x S := by
  simp only [Go.InnerOp.apply, Rust.applyInner, yields_seq, yields_liftM, Outcome.ensure_eq_ok,
    doHash_yields_iff]
  exact and_left_comm

/-- Without a spec, a round of the loop of the Rust crate is the step itself. -/
theorem calculateStep_yields_iff {op : Rust.InnerOp} {hash x : Bytes} :
    (Rust.calculateStep H none hash op).Yields x S ↔ (Rust.applyInner H op hash).Yields x S := by
  have hsize (h : Bytes) : Rust.ensureChildSize none h = .ok () := rfl
  simp [Rust.calculateStep, yields_bind, hsize]

theorem calculatePath_yields_iff {path : List Go.InnerOp} {res x : Bytes} :
    (Go.calculatePath H none res path).Yields x S ↔
      (∀ op ∈ path, Go.implementsHash op.hash) ∧
        (Rust.calculatePath H none res (path.map Go.InnerOp.toRust)).Yields x S := by
  induction path generalizing res with
  | nil => simp [Go.calculatePath, Rust.calculatePath]
  | cons op path ih =>
    have hgo (h : Bytes) : Go.checkChildSize none h = .ok () := rfl
    simp only [Go.calculatePath, Rust.calculatePath, List.map_cons, yields_bind, yields_mapErr,
      innerApply_yields_iff, calculateStep_yields_iff, yields_liftM, hgo, ih, List.forall_mem_cons]
    constructor
    · rintro ⟨h, ⟨hop, hh⟩, -, -, hpath, hx⟩
      exact ⟨⟨hop, hpath⟩, h, hh, hx⟩
    · rintro ⟨⟨hop, hpath⟩, h, hh, hx⟩
      exact ⟨h, ⟨hop, hh⟩, (), trivial, hpath, hx⟩

theorem calculate_yields_iff {p : Go.ExistenceProof} {root : Bytes} :
    (p.calculate H none).Yields root S ↔
      Go.Implemented p ∧ (Rust.calculateExistenceRoot H P p.toRust).Yields root S := by
  simp only [Rust.calculateExistenceRoot, Rust.calculateExistenceRootForSpec, yields_seq,
    yields_liftM, Outcome.ensure_eq_ok]
  simp only [Go.ExistenceProof.toRust]
  unfold Go.ExistenceProof.calculate
  cases hleaf : p.leaf with
  | none => simp
  | some leaf =>
    by_cases hkey : p.key.bytes = []
    · simp [hkey, Go.LeafOp.apply, yields_bind]
    by_cases hvalue : p.value = []
    · simp [hvalue, Go.LeafOp.apply, yields_bind]
    have himpl : Go.Implemented p ↔ (Go.implementsHash leaf.hash ∧
        Go.implementsPrehash leaf.prehashKey ∧ Go.implementsPrehash leaf.prehashValue ∧
        Go.knowsLength leaf.length) ∧ ∀ op ∈ p.path, Go.implementsHash op.hash :=
      ⟨fun h => ⟨h.leaf leaf hleaf, h.path⟩,
        fun h => ⟨fun l hl => Option.some.inj (hleaf.symm.trans hl) ▸ h.1, h.2⟩⟩
    simp only [yields_bind, yields_mapErr, leafApply_yields_iff (P := P) hkey hvalue,
      calculatePath_yields_iff, himpl]
    constructor
    · rintro ⟨h, ⟨hops, hh⟩, hpath, hx⟩
      exact ⟨⟨hops, hpath⟩, hkey, hvalue, h, hh, hx⟩
    · rintro ⟨⟨hops, hpath⟩, -, -, h, hh, hx⟩
      exact ⟨h, ⟨hops, hh⟩, hpath, hx⟩

theorem goCalculate_noPanic (p : Go.ExistenceProof) : (p.calculate H none).NoPanic := by
  have hpath (res : Bytes) : (Go.calculatePath H none res p.path).NoPanic := by
    induction p.path generalizing res with
    | nil => exact noPanic_pure res
    | cons op path ih =>
      exact ((Go.InnerOp.apply_noPanic H op res).mapErr _).bind fun res =>
        (noPanic_liftM (Outcome.noPanic_ok ())).bind fun _ => ih res
  unfold Go.ExistenceProof.calculate
  cases p.leaf with
  | none => exact noPanic_liftM (Outcome.noPanic_err _)
  | some leaf => exact ((Go.LeafOp.apply_noPanic H leaf _ _).mapErr _).bind hpath

variable (H P)

/-- The Go module computes a root if and only if the Rust crate computes the same one and the
operations of the proof are among those of the Go module; neither panics. -/
theorem calculate_eq_ok_iff (p : Go.ExistenceProof) :
    (∀ root, (p.calculate H none).out = .ok root ↔
      Go.Implemented p ∧ (Rust.calculateExistenceRoot H P p.toRust).out = .ok root) ∧
    (p.calculate H none).NoPanic ∧ (Rust.calculateExistenceRoot H P p.toRust).NoPanic := by
  refine ⟨fun root => ?_, goCalculate_noPanic p,
    Rust.calculateExistenceRootForSpec_noPanic H P p.toRust none⟩
  simp only [← yields_univ_iff]
  exact calculate_yields_iff

/-- A proof of one leaf with the given hash, length and inner hash operations. -/
def opsProof (hash length innerHash : Int32) : Go.ExistenceProof where
  key := some [1]
  value := [2]
  leaf := some { hash, prehashKey := 0, prehashValue := 0, length, prefix_ := [0] }
  path := [{ hash := innerHash, prefix_ := [1], suffix := none }]

/-- A leaf that is not hashed, a length operation with an unknown number, and an inner node hashed
with BLAKE3: only the Rust crate computes a root. -/
theorem calculate_differs :
    let H := HostFunctionsProvider.sha256Only
    ∀ p ∈ [opsProof 0 0 1, opsProof 1 9 1, opsProof 1 0 9],
      (∃ msg, (p.calculate H none).out = .err msg) ∧
        ∃ root, (Rust.calculateExistenceRoot H .leb128 p.toRust).out = .ok root := by
  intro H p hp
  fin_cases hp <;> exact ⟨⟨_, rfl⟩, _, rfl⟩

end Ics23
