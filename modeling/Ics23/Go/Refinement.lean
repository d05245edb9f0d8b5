import Ics23.Openings
import Ics23.Go.Binary

/-!
# The Go verifier follows rules

`Follows spec inner R` says that a spec has the shape of the three built-in ones and that its checks
let pass only what the rules `R` allow; they may ask for more.  For such a spec

* `ExistenceProof.valid_of_verify`: an accepted existence proof asks for the hash operations of the
  spec, and its opening is valid;
* `NonExistenceProof.refutes_of_verify`: the openings of the sides of an accepted non-existence
  proof refute the key;
* `NonExistenceProof.verify_ends_panic`: the only panics are those of the neighbour check on two
  accepted sides around the key.

As for the Rust verifier, each statement keeps the set `S` of the strings handed to SHA-256.
-/

namespace Ics23.Go

open Outcome Logged

/-- What an existence proof claims. -/
def ExistenceProof.opening (p : ExistenceProof) : Opening where
  prefix_ := (p.leaf.map LeafOp.prefix_).getD []
  key := p.key.bytes
  value := p.value
  cuts := p.path.map InnerOp.cut

/-- The proof asks for the hash operations of the format. -/
structure Canonical (f : LeafFormat) (p : ExistenceProof) : Prop where
  leaf : ∃ prefix_, p.leaf = some (leafOp f prefix_)
  path : ∀ op ∈ p.path, op.hash = 1

/-- Leaf and inner ops that pass the checks of the spec follow the rules. -/
structure Follows (spec : ProofSpec) (inner : InnerSpec) (R : Rules) : Prop extends
    BinarySpec spec inner R where
  leafHeader : ∀ {op}, LeafOp.checkAgainstSpec op spec = .ok () → R.leafHeader op.prefix_
  innerHeader : ∀ {op : InnerOp} {layer : ℕ}, 1 ≤ layer →
    op.checkAgainstSpec spec layer = .ok () → R.innerHeader layer op.prefix_

variable {H : HostFunctionsProvider} {S : Set Bytes} {f : LeafFormat}

/-! ### Varints -/

/-- The loop is the LEB128 encoder. -/
theorem encodeVarintProto_eq (l : ℕ) : encodeVarintProto l = Leb128.encode l := by
  induction l using Nat.strong_induction_on with
  | h l ih =>
    rw [encodeVarintProto]
    split_ifs with h
    · have hlow : l &&& 0x7f ||| 0x80 = l % 128 + 128 := by
        have hor : 2 ^ 7 * 1 + l % 2 ^ 7 = 2 ^ 7 * 1 ||| l % 2 ^ 7 :=
          Nat.two_pow_add_eq_or_of_lt (Nat.mod_lt _ (by omega)) 1
        rw [show (0x7f : ℕ) = 2 ^ 7 - 1 from rfl, Nat.and_two_pow_sub_one_eq_mod, Nat.or_comm]
        exact hor.symm.trans (Nat.add_comm _ _)
      rw [hlow, Nat.shiftRight_eq_div_pow, ih _ (by omega), Leb128.encode_of_le (n := l) h]
    · rw [Leb128.encode_of_lt (by omega)]

/-! ### Leaf and inner operations -/

theorem doHash_one (data : Bytes) : doHash H 1 data = .query data (H.sha data) := rfl

theorem hashKey_yields {key x : Bytes} :
    (doHashOrNoop H (if f.hashedKeys then 1 else 0) key).Yields x S ↔
      x = f.treeKey H key ∧ (f.hashedKeys → key ∈ S) := by
  unfold LeafFormat.treeKey doHashOrNoop
  by_cases hf : f.hashedKeys
  · simp only [hf, if_true, doHash_one]
    rw [if_neg (by decide), yields_query]
    simp only [forall_const, eq_comm]
  · simp only [hf, if_false, if_true, yields_pure, false_implies, and_true, Bool.false_eq_true,
      eq_comm]

theorem doLengthOp_eq (data : Bytes) :
    doLengthOp (if f.lengths then 1 else 0) data = .ok (f.frame data) := by
  unfold LeafFormat.frame
  by_cases hf : f.lengths
  · rw [if_pos hf, if_pos hf, ← encodeVarintProto_eq]
    rfl
  · rw [if_neg hf, if_neg hf]
    rfl

theorem LeafOp.apply_yields {p key value x : Bytes} :
    (LeafOp.apply H (leafOp f p) key value).Yields x S ↔
      key ≠ [] ∧ value ≠ [] ∧ (f.hashedKeys → key ∈ S) ∧ value ∈ S ∧
        f.message H p key value ∈ S ∧ x = H.sha (f.message H p key value) := by
  have hvalue {d : Bytes} : (doHashOrNoop H 1 value).Yields d S ↔ d = H.sha value ∧ value ∈ S := by
    rw [doHashOrNoop, if_neg (by decide), doHash_one, yields_query, eq_comm]
  unfold LeafOp.apply prepareLeafData
  simp only [leafOp, yields_bind, yields_liftM, yields_mapErr, ensure_eq_ok, hashKey_yields, hvalue,
    doLengthOp_eq, doHash_one, yields_query, Outcome.ok.injEq]
  constructor
  · rintro ⟨_, hk, _, hv, _, ⟨_, ⟨rfl, hkS⟩, rfl⟩, _, ⟨_, ⟨rfl, hvS⟩, rfl⟩, rfl, hm⟩
    exact ⟨hk, hv, hkS, hvS, hm, rfl⟩
  · rintro ⟨hk, hv, hkS, hvS, hm, rfl⟩
    exact ⟨(), hk, (), hv, _, ⟨_, ⟨rfl, hkS⟩, rfl⟩, _, ⟨_, ⟨rfl, hvS⟩, rfl⟩, rfl, hm⟩

theorem InnerOp.apply_yields {op : InnerOp} (hash : op.hash = 1) {child x : Bytes} :
    (op.apply H child).Yields x S ↔
      child ≠ [] ∧ op.cut.fill child ∈ S ∧ x = H.sha (op.cut.fill child) := by
  unfold InnerOp.apply
  simp only [hash, doHash_one, yields_bind, yields_liftM, ensure_eq_ok, yields_query]
  constructor
  · rintro ⟨_, hc, rfl, hm⟩
    exact ⟨hc, hm, rfl⟩
  · rintro ⟨hc, hm, rfl⟩
    exact ⟨(), hc, rfl, hm⟩

theorem LeafOp.checkAgainstSpec_eq_ok {spec : ProofSpec}
    (hl : spec.leafSpec = some (leafOp f [0])) {op : LeafOp} :
    LeafOp.checkAgainstSpec op spec = .ok () ↔
      (specEquals spec iavlSpec → validateIavlOps op.prefix_ op.hash 0 = .ok ()) ∧
        op = leafOp f op.prefix_ ∧ LeafHead op.prefix_ := by
  unfold LeafOp.checkAgainstSpec
  rw [hl]
  simp only [seq_eq_ok, checkIf_eq_ok, ensure_eq_ok, hasPrefix_iff, leafHead_iff]
  cases op
  simp only [leafOp, LeafOp.mk.injEq, and_assoc, and_true]

/-! ### Runs without panics -/

section NoPanic

variable (H : HostFunctionsProvider)

theorem doHash_noPanic (hashOp : Int32) (data : Bytes) : (doHash H hashOp data).NoPanic := by
  unfold doHash
  split
  case h_4 => exact (noPanic_query _ _).bind fun _ => noPanic_pure _
  case h_8 => exact noPanic_liftM (noPanic_err _)
  all_goals first | exact noPanic_query _ _ | exact noPanic_pure _

theorem doHashOrNoop_noPanic (hashOp : Int32) (data : Bytes) :
    (doHashOrNoop H hashOp data).NoPanic := by
  unfold doHashOrNoop
  split_ifs
  exacts [noPanic_pure _, doHash_noPanic H _ _]

theorem doLengthOp_noPanic (lengthOp : Int32) (data : Bytes) :
    Outcome.NoPanic (doLengthOp lengthOp data) := by
  unfold doLengthOp
  split
  case h_3 => exact (noPanic_ensure _ _).bind fun _ _ => noPanic_ok _
  case h_4 => exact (noPanic_ensure _ _).bind fun _ _ => noPanic_ok _
  all_goals first | exact noPanic_ok _ | exact noPanic_err _

theorem LeafOp.apply_noPanic (op : LeafOp) (key value : Bytes) :
    (LeafOp.apply H op key value).NoPanic := by
  have hdata (hashOp lengthOp : Int32) (data : Bytes) :
      (prepareLeafData H hashOp lengthOp data).NoPanic :=
    (doHashOrNoop_noPanic H _ _).bind fun _ => noPanic_liftM (doLengthOp_noPanic _ _)
  refine (noPanic_liftM (noPanic_ensure _ _)).bind fun _ => ?_
  refine (noPanic_liftM (noPanic_ensure _ _)).bind fun _ => ?_
  exact ((hdata _ _ _).mapErr _).bind fun _ => ((hdata _ _ _).mapErr _).bind fun _ =>
    doHash_noPanic H _ _

theorem InnerOp.apply_noPanic (op : InnerOp) (child : Bytes) : (op.apply H child).NoPanic :=
  (noPanic_liftM (noPanic_ensure _ _)).bind fun _ => doHash_noPanic H _ _

theorem validateIavlOps_noPanic (prefix_ : Bytes) (hash : Int32) (layerNum : ℤ) :
    Outcome.NoPanic (validateIavlOps prefix_ hash layerNum) := by
  have hread (r : Bytes) (msg : String) : Outcome.NoPanic (wrap msg (readVarint r)) := by
    refine Outcome.NoPanic.mapErr ?_ _
    unfold readVarint
    split
    · exact noPanic_ok _
    · split_ifs <;> exact noPanic_err _
  refine (hread _ _).bind fun _ _ => (noPanic_ensure _ _).bind fun _ _ => ?_
  refine (hread _ _).bind fun _ _ => (noPanic_ensure _ _).bind fun _ _ => ?_
  refine (hread _ _).bind fun _ _ => (noPanic_ensure _ _).bind fun _ _ => ?_
  split_ifs
  · exact (noPanic_ensure _ _).bind fun _ _ => (noPanic_ensure _ _).bind fun _ _ =>
      noPanic_ensure _ _
  · exact (noPanic_ensure _ _).bind fun _ _ => noPanic_ensure _ _

theorem LeafOp.checkAgainstSpec_noPanic (op : LeafOp) (spec : ProofSpec) :
    Outcome.NoPanic (LeafOp.checkAgainstSpec op spec) := by
  unfold LeafOp.checkAgainstSpec
  cases spec.leafSpec with
  | none => exact noPanic_err _
  | some lspec =>
    refine (noPanic_checkIf (validateIavlOps_noPanic _ _ _)).bind fun _ _ => ?_
    refine (noPanic_ensure _ _).bind fun _ _ => (noPanic_ensure _ _).bind fun _ _ => ?_
    refine (noPanic_ensure _ _).bind fun _ _ => (noPanic_ensure _ _).bind fun _ _ => ?_
    exact noPanic_ensure _ _

/-- The child size is known to be positive where something is divided by it. -/
theorem InnerOp.checkAgainstSpec_noPanic (op : InnerOp) (spec : ProofSpec) (b : ℤ) :
    Outcome.NoPanic (op.checkAgainstSpec spec b) := by
  unfold InnerOp.checkAgainstSpec
  split
  · exact noPanic_err _
  · exact noPanic_err _
  · refine (noPanic_ensure _ _).bind fun _ _ => ?_
    refine (noPanic_checkIf (validateIavlOps_noPanic _ _ _)).bind fun _ _ => ?_
    refine NoPanic.bind (noPanic_checkIf ?_) fun _ _ => ?_
    · exact (noPanic_ensure _ _).bind fun _ _ => (noPanic_ensure _ _).bind fun _ _ =>
        noPanic_ensure _ _
    · refine (noPanic_ensure _ _).bind fun _ _ => (noPanic_ensure _ _).bind fun _ _ => ?_
      refine (noPanic_ensure _ _).bind fun _ _ => (noPanic_ensure _ _).bind fun _ hsize => ?_
      refine (noPanic_ensure _ _).bind fun _ _ => NoPanic.bind ?_ fun _ _ => noPanic_ensure _ _
      rw [ensure_eq_ok, Int32.le_iff_toInt_le] at hsize
      rw [remInt, if_neg (fun h => hsize (by rw [h]; decide))]
      exact noPanic_ok _

theorem checkPath_noPanic (spec : ProofSpec) (layerNum : ℤ) (path : List InnerOp) :
    Outcome.NoPanic (checkPath spec layerNum path) := by
  induction path generalizing layerNum with
  | nil => exact noPanic_ok ()
  | cons op path ih =>
    exact ((InnerOp.checkAgainstSpec_noPanic op spec _).mapErr _).bind fun _ _ => ih _

theorem ExistenceProof.checkAgainstSpec_noPanic (p : ExistenceProof) (spec : ProofSpec) :
    Outcome.NoPanic (p.checkAgainstSpec spec) := by
  unfold ExistenceProof.checkAgainstSpec
  cases p.leaf with
  | none => exact noPanic_err _
  | some leaf =>
    refine ((LeafOp.checkAgainstSpec_noPanic leaf spec).mapErr _).bind fun _ _ => ?_
    refine (noPanic_ensure _ _).bind fun _ _ => (noPanic_ensure _ _).bind fun _ _ => ?_
    exact checkPath_noPanic _ _ _

end NoPanic

/-! ### Existence proofs -/

section Follows

variable {spec : ProofSpec} {inner : InnerSpec} {R : Rules} (F : Follows spec inner R)

include F

theorem checkPath_eq_ok {layerNum : ℕ} (hlayer : 1 ≤ layerNum) {path : List InnerOp}
    (h : checkPath spec layerNum path = .ok ()) :
    (∀ op ∈ path, op.hash = 1) ∧ R.CutsOk layerNum (path.map InnerOp.cut) := by
  induction path generalizing layerNum with
  | nil => exact ⟨by simp, trivial⟩
  | cons op path ih =>
    rw [checkPath, seq_eq_ok, mapErr_eq_ok] at h
    have hnext : (layerNum : ℤ) + 1 = (layerNum + 1 : ℕ) := by push_cast; rfl
    rw [hnext] at h
    obtain ⟨hop, hpath⟩ := h
    obtain ⟨hhashes, hcuts⟩ := ih (by omega) hpath
    obtain ⟨hhash, -, -, hhead, hmin, hmax, hsuffix⟩ :=
      (InnerOp.checkAgainstSpec_eq_ok F.shape F.leafSpec F.innerSpec).1 hop
    have hne : op.cut.1 ≠ [] := by
      have hlo := R.slots.lo_pos
      intro hnil
      rw [hnil, List.length_nil] at hmin
      omega
    refine ⟨List.forall_mem_cons.2 ⟨hhash.trans F.innerHash, hhashes⟩, ?_, hcuts⟩
    exact ⟨F.innerHeader hlayer hop, innerHead_iff.2 ⟨hne, hhead⟩, hmin, hmax, hsuffix⟩

theorem ExistenceProof.checkAgainstSpec_eq_ok {p : ExistenceProof}
    (h : p.checkAgainstSpec spec = .ok ()) :
    Canonical R.leaves p ∧ R.LeafPrefix p.opening.prefix_ ∧ R.CutsOk 1 p.opening.cuts := by
  unfold ExistenceProof.checkAgainstSpec at h
  cases hleaf : p.leaf with
  | none =>
    rw [hleaf] at h
    contradiction
  | some leaf =>
    rw [hleaf] at h
    simp only [seq_eq_ok, mapErr_eq_ok] at h
    obtain ⟨hleafOk, -, -, hpath⟩ := h
    obtain ⟨hhash, hcuts⟩ := checkPath_eq_ok F (le_refl 1) hpath
    obtain ⟨-, hop, hhead⟩ := (LeafOp.checkAgainstSpec_eq_ok F.leafSpec).1 hleafOk
    have hpre : p.opening.prefix_ = leaf.prefix_ := by
      simp only [ExistenceProof.opening, hleaf, Option.map_some, Option.getD_some]
    rw [hpre]
    exact ⟨⟨⟨_, hleaf.trans (congrArg some hop)⟩, hhash⟩, ⟨F.leafHeader hleafOk, hhead⟩, hcuts⟩

theorem checkChildSize_eq (m : Bytes) : checkChildSize (some spec) (H.sha m) = .ok () := by
  have hc := R.slots.child_le
  rw [checkChildSize, F.innerSpec, deref, ok_bind, ensure_eq_ok, F.shape.childSize, H.length_sha]
  omega

theorem calculatePath_yields {path : List InnerOp} (hash : ∀ op ∈ path, op.hash = 1) {m x : Bytes} :
    (calculatePath H (some spec) (H.sha m) path).Yields x S ↔
      (∀ q ∈ climbImages H.sha (H.sha m) (path.map InnerOp.cut), q ∈ S) ∧
        climb H.sha (H.sha m) (path.map InnerOp.cut) = x := by
  induction path generalizing m with
  | nil => simp [calculatePath, climbImages, climb]
  | cons op path ih =>
    rw [List.forall_mem_cons] at hash
    simp only [calculatePath, yields_bind, yields_mapErr, InnerOp.apply_yields hash.1, yields_liftM,
      List.map_cons, climbImages, climb, List.forall_mem_cons]
    constructor
    · rintro ⟨_, ⟨-, hm, rfl⟩, _, -, h⟩
      rw [ih hash.2] at h
      exact ⟨⟨hm, h.1⟩, h.2⟩
    · rintro ⟨⟨hm, h⟩, h'⟩
      exact ⟨_, ⟨H.sha_ne_nil m, hm, rfl⟩, (), checkChildSize_eq F _, (ih hash.2).2 ⟨h, h'⟩⟩

/-- The opening of an accepted existence proof is valid. -/
theorem ExistenceProof.valid_of_verify {p : ExistenceProof} {root key value : Bytes}
    (h : (p.verify H spec root key value).Yields () S) :
    Canonical R.leaves p ∧ p.key.bytes = key ∧ p.value = value ∧ p.opening.Valid R H S root := by
  unfold ExistenceProof.verify at h
  simp only [yields_bind, yields_liftM, yields_mapErr, ensure_eq_ok] at h
  obtain ⟨_, hcheck, _, hkey, _, hvalue, x, hx, rfl⟩ := h
  obtain ⟨hc, hpre, hcuts⟩ := ExistenceProof.checkAgainstSpec_eq_ok F hcheck
  obtain ⟨lp, hlp⟩ := hc.leaf
  have hmsg : p.opening.message R H = R.leaves.message H lp p.key.bytes p.value := by
    simp only [Opening.message, ExistenceProof.opening, hlp, Option.map_some, Option.getD_some,
      leafOp]
  unfold ExistenceProof.calculate at hx
  rw [hlp] at hx
  simp only [yields_bind, yields_mapErr, LeafOp.apply_yields] at hx
  obtain ⟨_, ⟨hk, hv, hkS, hvS, hm, rfl⟩, hx⟩ := hx
  rw [← hmsg] at hm hx
  obtain ⟨himages, hclimb⟩ := (calculatePath_yields F hc.path).1 hx
  exact ⟨hc, hkey.symm, hvalue.symm, ⟨hk, hv, hpre, hcuts, hkS, hvS, hm, himages, hclimb⟩⟩

theorem ExistenceProof.verify_noPanic (p : ExistenceProof) (root key value : Bytes) :
    (p.verify H spec root key value).NoPanic := by
  refine (noPanic_liftM (p.checkAgainstSpec_noPanic spec)).bind fun _ => ?_
  refine (noPanic_liftM (noPanic_ensure _ _)).bind fun _ => ?_
  refine (noPanic_liftM (noPanic_ensure _ _)).bind fun _ => ?_
  refine Logged.NoPanic.bind (Logged.NoPanic.mapErr ?_ _) fun _ =>
    noPanic_liftM (noPanic_ensure _ _)
  have hpath (res : Bytes) (path : List InnerOp) :
      (calculatePath H (some spec) res path).NoPanic := by
    induction path generalizing res with
    | nil => exact noPanic_pure _
    | cons op path ih =>
      refine ((InnerOp.apply_noPanic H op res).mapErr _).bind fun res' => ?_
      refine (noPanic_liftM ?_).bind fun _ => ih res'
      rw [checkChildSize, F.innerSpec, deref, ok_bind]
      exact noPanic_ensure _ _
  unfold ExistenceProof.calculate
  cases p.leaf with
  | none => exact noPanic_liftM (noPanic_err _)
  | some leaf => exact ((LeafOp.apply_noPanic H _ _ _).mapErr _).bind fun _ => hpath _ _

/-! ### Non-existence proofs -/

theorem keyForComparison_yields {key x : Bytes} :
    (keyForComparison H spec key).Yields x S ↔
      x = R.leaves.treeKey H key ∧ (R.leaves.hashedKeys → key ∈ S) := by
  unfold keyForComparison
  rw [F.prehash, F.leafSpec, ← hashKey_yields]
  by_cases hf : R.leaves.hashedKeys
  · simp only [hf, Bool.not_true, Bool.false_eq_true, if_false, deref, leafOp, if_true]
    rfl
  · simp only [hf, Bool.not_false, if_true, Bool.false_eq_true, if_false]
    rfl

theorem compareKeys_yields {key other : Bytes} {order : Ordering} :
    (compareKeys H spec key other).Yields order S ↔
      order = compareBytes (R.leaves.treeKey H key) (R.leaves.treeKey H other) ∧
        (R.leaves.hashedKeys → key ∈ S ∧ other ∈ S) := by
  unfold compareKeys
  simp only [yields_bind, keyForComparison_yields F, yields_pure]
  constructor
  · rintro ⟨_, ⟨rfl, ha⟩, _, ⟨rfl, hb⟩, rfl⟩
    exact ⟨rfl, fun hf => ⟨ha hf, hb hf⟩⟩
  · rintro ⟨rfl, h⟩
    exact ⟨_, ⟨rfl, fun hf => (h hf).1⟩, _, ⟨rfl, fun hf => (h hf).2⟩, rfl⟩

theorem compareKeys_noPanic (key other : Bytes) : (compareKeys H spec key other).NoPanic := by
  have hkey (k : Bytes) : (keyForComparison H spec k).NoPanic := by
    have h : (keyForComparison H spec k).Yields (R.leaves.treeKey H k) Set.univ :=
      (keyForComparison_yields F).2 ⟨rfl, fun _ => Set.mem_univ k⟩
    exact Returns.noPanic ⟨_, h.out_eq⟩
  exact (hkey _).bind fun _ => (hkey _).bind fun _ => noPanic_pure _

omit F in
theorem ensureRange_yields {key : Bytes} {side : Slice} {order : Ordering} {msg : String} :
    (ensureRange H spec key side order msg).Yields () S ↔
      ∀ k ∈ side, (compareKeys H spec key k).Yields order S := by
  cases side with
  | none => simp [ensureRange]
  | some k => simp [ensureRange, yields_bind]

theorem ensureRange_noPanic (key : Bytes) (side : Slice) (order : Ordering) (msg : String) :
    (ensureRange H spec key side order msg).NoPanic := by
  cases side with
  | none => exact noPanic_pure ()
  | some k =>
    exact (compareKeys_noPanic F _ _).bind fun _ => noPanic_liftM (noPanic_ensure _ _)

omit F in
theorem verifySide_yields {side : Option ExistenceProof} {root : Bytes} {msg : String} :
    (verifySide H side spec root msg).Yields () S ↔
      ∀ p ∈ side, (p.verify H spec root p.key.bytes p.value).Yields () S := by
  cases side <;> simp [verifySide]

theorem verifySide_noPanic (side : Option ExistenceProof) (root : Bytes) (msg : String) :
    (verifySide H side spec root msg).NoPanic := by
  cases side with
  | none => exact noPanic_pure ()
  | some p => exact (ExistenceProof.verify_noPanic F p _ _ _).mapErr _

/-- The key of an accepted side is not nil. -/
theorem sideKey_of_verify {side : Option ExistenceProof} {root : Bytes}
    (h : ∀ p ∈ side, (p.verify H spec root p.key.bytes p.value).Yields () S) :
    sideKey side = side.map fun p => p.key.bytes := by
  cases side with
  | none => rfl
  | some p =>
    have hvalid := (ExistenceProof.valid_of_verify F (h p rfl)).2.2.2
    cases hkey : p.key with
    | none => exact absurd (congrArg Slice.bytes hkey) hvalid.key_ne
    | some k => simp [sideKey, hkey, Slice.bytes]

theorem checkNeighbors_eq_ok {left right : Option ExistenceProof}
    (hl : sideKey left = left.map fun p => p.key.bytes)
    (hr : sideKey right = right.map fun p => p.key.bytes)
    (h : checkNeighbors spec left right = .ok ()) :
    R.slots.GapCuts ((left.map ExistenceProof.opening).map Opening.cuts)
      ((right.map ExistenceProof.opening).map Opening.cuts) := by
  unfold checkNeighbors at h
  rw [hl, hr, F.innerSpec] at h
  cases left with
  | none =>
    cases right with
    | none => contradiction
    | some right =>
      simp only [Option.map_none, Option.map_some, deref, ok_bind, bind_eq_ok, ensure_eq_ok,
        exists_eq_right] at h
      exact (isLeftMost_eq_ok F.shape).1 h
  | some left =>
    cases right with
    | none =>
      simp only [Option.map_none, Option.map_some, deref, ok_bind, bind_eq_ok, ensure_eq_ok,
        exists_eq_right] at h
      exact (isRightMost_eq_ok F.shape).1 h
    | some right =>
      simp only [Option.map_some, deref, ok_bind, bind_eq_ok, ensure_eq_ok, exists_eq_right] at h
      exact (isLeftNeighbor_eq_ok F.shape).1 h

theorem checkNeighbors_eq_panic {left right : Option ExistenceProof}
    (hl : sideKey left = left.map fun p => p.key.bytes)
    (hr : sideKey right = right.map fun p => p.key.bytes)
    (hsome : ¬ (sideKey left = none ∧ sideKey right = none)) {q : Panic} :
    checkNeighbors spec left right = .panic q ↔
      ∃ l ∈ left, ∃ r ∈ right, isLeftNeighbor (some inner) l.path r.path = .panic q := by
  unfold checkNeighbors
  rw [hl, hr] at hsome ⊢
  rw [F.innerSpec]
  cases left with
  | none =>
    cases right with
    | none => simp at hsome
    | some right =>
      have h := isLeftMost_noPanic F.shape right.path
      simpa [deref, bind_eq_panic] using h q
  | some left =>
    cases right with
    | none =>
      have h := isRightMost_noPanic F.shape left.path
      simpa [deref, bind_eq_panic] using h q
    | some right => simp [deref, bind_eq_panic]

/-- The openings of an accepted non-existence proof refute the key. -/
theorem NonExistenceProof.refutes_of_verify {p : NonExistenceProof} {root key : Bytes}
    (h : (p.verify H spec root key).Yields () S) :
    (∀ ex ∈ p.left, Canonical R.leaves ex) ∧ (∀ ex ∈ p.right, Canonical R.leaves ex) ∧
      Refutes R H S root key (p.left.map ExistenceProof.opening)
        (p.right.map ExistenceProof.opening) := by
  unfold NonExistenceProof.verify at h
  simp only [yields_seq, verifySide_yields, ensureRange_yields, yields_liftM] at h
  obtain ⟨hl, hr, -, hgt, hlt, hgap⟩ := h
  have hlkey := sideKey_of_verify F hl
  have hrkey := sideKey_of_verify F hr
  rw [hrkey] at hgt
  rw [hlkey] at hlt
  have hleft : ∀ ex ∈ p.left, _ := fun ex hex => ExistenceProof.valid_of_verify F (hl ex hex)
  have hright : ∀ ex ∈ p.right, _ := fun ex hex => ExistenceProof.valid_of_verify F (hr ex hex)
  have hbelow : ∀ ex ∈ p.left, _ := fun ex hex =>
    (compareKeys_yields F).1 (hlt _ (Option.mem_map_of_mem _ hex))
  have habove : ∀ ex ∈ p.right, _ := fun ex hex =>
    (compareKeys_yields F).1 (hgt _ (Option.mem_map_of_mem _ hex))
  have hcuts := checkNeighbors_eq_ok F hlkey hrkey hgap
  refine ⟨fun ex hex => (hleft ex hex).1, fun ex hex => (hright ex hex).1, ?_, ?_, ?_, ?_, ?_,
    hcuts⟩
  · exact Option.forall_mem_map.2 fun ex hex => (hleft ex hex).2.2.2
  · exact Option.forall_mem_map.2 fun ex hex => compareBytes_eq_gt.1 (hbelow ex hex).1.symm
  · exact Option.forall_mem_map.2 fun ex hex => (hright ex hex).2.2.2
  · exact Option.forall_mem_map.2 fun ex hex => compareBytes_eq_lt.1 (habove ex hex).1.symm
  · -- the key is hashed on the side that is there
    intro hf
    cases hleft : p.left with
    | some ex => exact ((hbelow ex hleft).2 hf).1
    | none =>
      cases hright : p.right with
      | some ex => exact ((habove ex hright).2 hf).1
      | none =>
        rw [hleft, hright] at hcuts
        exact hcuts.elim

/-- Non-existence panics only in the neighbour check on two accepted sides around the key. -/
theorem NonExistenceProof.verify_ends_panic {p : NonExistenceProof} {root key : Bytes} {q : Panic} :
    (p.verify H spec root key).Ends (.panic q) S ↔
      ∃ left ∈ p.left, ∃ right ∈ p.right,
        (left.verify H spec root left.key.bytes left.value).Yields () S ∧
        (right.verify H spec root right.key.bytes right.value).Yields () S ∧
        (compareKeys H spec key left.key.bytes).Yields .gt S ∧
        (compareKeys H spec key right.key.bytes).Yields .lt S ∧
        isLeftNeighbor (some inner) left.path right.path = .panic q := by
  have hsides (side : Option ExistenceProof) (msg : String) :=
    (verifySide_noPanic F (H := H) side root msg).not_ends (S := S) (p := q)
  have hranges (side : Slice) (order : Ordering) (msg : String) :=
    (ensureRange_noPanic F (H := H) key side order msg).not_ends (S := S) (p := q)
  have hsome (c : Prop) [Decidable c] (msg : String) :
      ¬ (liftM (ensure c msg) : Hashing Unit).Ends (.panic q) S :=
    (noPanic_liftM (noPanic_ensure c msg)).not_ends
  unfold NonExistenceProof.verify
  simp only [ends_panic_seq, hsides, hranges, hsome, false_or, verifySide_yields,
    ensureRange_yields, yields_liftM, ensure_eq_ok, ends_panic_liftM]
  constructor
  · rintro ⟨hl, hr, hsome, hlt, hgt, hpanic⟩
    have hlkey := sideKey_of_verify F hl
    have hrkey := sideKey_of_verify F hr
    obtain ⟨left, hleft, right, hright, hpanic⟩ :=
      (checkNeighbors_eq_panic F hlkey hrkey hsome).1 hpanic
    rw [hrkey] at hlt
    rw [hlkey] at hgt
    exact ⟨left, hleft, right, hright, hl left hleft, hr right hright,
      hgt _ (Option.mem_map_of_mem _ hleft), hlt _ (Option.mem_map_of_mem _ hright), hpanic⟩
  · rintro ⟨left, hleft, right, hright, hl, hr, hgt, hlt, hpanic⟩
    have hleftOk : ∀ ex ∈ p.left, (ex.verify H spec root ex.key.bytes ex.value).Yields () S :=
      fun ex hex => Option.mem_unique hleft hex ▸ hl
    have hrightOk : ∀ ex ∈ p.right, (ex.verify H spec root ex.key.bytes ex.value).Yields () S :=
      fun ex hex => Option.mem_unique hright hex ▸ hr
    have hlkey := sideKey_of_verify F hleftOk
    have hrkey := sideKey_of_verify F hrightOk
    have hsome : ¬ (sideKey p.left = none ∧ sideKey p.right = none) := by
      rintro ⟨hnone, -⟩
      rw [hlkey, Option.mem_def.1 hleft] at hnone
      contradiction
    refine ⟨hleftOk, hrightOk, hsome, ?_, ?_, ?_⟩
    · rw [hrkey]
      exact Option.forall_mem_map.2 fun ex hex => Option.mem_unique hright hex ▸ hlt
    · rw [hlkey]
      exact Option.forall_mem_map.2 fun ex hex => Option.mem_unique hleft hex ▸ hgt
    · exact (checkNeighbors_eq_panic F hlkey hrkey hsome).2 ⟨left, hleft, right, hright, hpanic⟩

end Follows

/-! ### Membership and non-membership -/

theorem bind_getExist_eq_some {proof : Option CommitmentProof} {ex : ExistenceProof} :
    proof.bind CommitmentProof.getExist = some ex ↔ proof = some (.exist (some ex)) := by
  rcases proof with _ | (_ | _ | _ | _ | _) <;> simp [CommitmentProof.getExist]

theorem bind_getNonexist_eq_some {proof : Option CommitmentProof} {non : NonExistenceProof} :
    proof.bind CommitmentProof.getNonexist = some non ↔ proof = some (.nonexist (some non)) := by
  rcases proof with _ | (_ | _ | _ | _ | _) <;> simp [CommitmentProof.getNonexist]

variable {spec : ProofSpec} {root key value : Bytes} {proof : Option CommitmentProof}

theorem verifyMembership_yields_true :
    (verifyMembership H spec root proof key value).Yields true S ↔
      ∃ ex, proof = some (.exist (some ex)) ∧ (ex.verify H spec root key value).Yields () S := by
  unfold verifyMembership
  simp only [← bind_getExist_eq_some]
  cases proof.bind CommitmentProof.getExist with
  | none => simp
  | some ex => simp [yields_isOk_unit]

theorem verifyNonMembership_yields_true :
    (verifyNonMembership H spec root proof key).Yields true S ↔
      ∃ non, proof = some (.nonexist (some non)) ∧ (non.verify H spec root key).Yields () S := by
  unfold verifyNonMembership
  simp only [← bind_getNonexist_eq_some]
  cases proof.bind CommitmentProof.getNonexist with
  | none => simp
  | some non => simp [yields_isOk_unit]

theorem verifyNonMembership_ends_panic {q : Panic} :
    (verifyNonMembership H spec root proof key).Ends (.panic q) S ↔
      ∃ non, proof = some (.nonexist (some non)) ∧
        (non.verify H spec root key).Ends (.panic q) S := by
  unfold verifyNonMembership
  simp only [← bind_getNonexist_eq_some]
  cases proof.bind CommitmentProof.getNonexist with
  | none => simpa using (noPanic_pure false).not_ends
  | some non => simp [ends_panic_isOk]

/-- Non-membership returns a boolean or panics: all errors are caught. -/
theorem verifyNonMembership_returns_or_panic (H : HostFunctionsProvider) (spec : ProofSpec)
    (root : Bytes) (proof : Option CommitmentProof) (key : Bytes) :
    (verifyNonMembership H spec root proof key).Returns ∨
      ∃ q, (verifyNonMembership H spec root proof key).out = .panic q := by
  unfold verifyNonMembership
  cases proof.bind CommitmentProof.getNonexist with
  | none => exact .inl (returns_pure false)
  | some non => exact returns_or_panic_isOk _

end Ics23.Go
