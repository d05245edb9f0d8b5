import Ics23.Openings
import Ics23.Rust.Api
import Ics23.Rust.Neighbors

/-!
# The Rust verifier follows rules

`Implements P spec R` says that a spec has the shape of the three built-in ones and that its checks
on prefixes are those of the rules `R`.  For such a spec

* `verifyExistence_yields`: an existence proof is accepted if and only if it asks for the hash
  operations of the spec and its opening is valid;
* `verifyNonExistence_yields`: a non-existence proof is accepted if and only if the openings of its
  sides refute the key;
* `verifyNonExistence_ends_panic`: the only panic comes from two valid openings on both sides of
  the key of which one path is a tail of the other.

Each statement keeps the set `S` of the strings handed to SHA-256.
-/

namespace Ics23.Rust

open Outcome Logged

/-- What an existence proof claims. -/
def ExistenceProof.opening (proof : ExistenceProof) : Opening where
  prefix_ := (proof.leaf.map LeafOp.prefix_).getD []
  key := proof.key
  value := proof.value
  cuts := proof.path.map InnerOp.cut

/-- The existence proof that claims no more and no less. -/
def existenceProof (f : LeafFormat) (o : Opening) : ExistenceProof where
  key := o.key
  value := o.value
  leaf := some (leafOp f o.prefix_)
  path := o.cuts.map fun c => { hash := 1, prefix_ := c.1, suffix := c.2 }

/-- The proof asks for the hash operations of the format. -/
structure Canonical (f : LeafFormat) (proof : ExistenceProof) : Prop where
  leaf : ∃ prefix_, proof.leaf = some (leafOp f prefix_)
  path : ∀ op ∈ proof.path, op.hash = 1

theorem opening_existenceProof (f : LeafFormat) (o : Opening) :
    (existenceProof f o).opening = o := by
  simp [existenceProof, ExistenceProof.opening, Function.comp_def, InnerOp.cut, leafOp]

theorem canonical_existenceProof (f : LeafFormat) (o : Opening) :
    Canonical f (existenceProof f o) where
  leaf := ⟨o.prefix_, rfl⟩
  path := List.forall_mem_map.2 fun _ _ => rfl

/-- The checks that a spec makes on prefixes are those of the rules. -/
structure Implements (P : Prost) (spec : ProofSpec) (inner : InnerSpec) (R : Rules) : Prop extends
    BinarySpec spec inner R where
  minDepth : spec.minDepth = 0
  ensureLeafPrefix_eq_ok : ∀ {p}, ensureLeafPrefix P p spec = .ok () ↔ R.leafHeader p
  ensureInnerPrefix_eq_ok : ∀ {p : Bytes} {layer : ℕ},
    ensureInnerPrefix P p spec layer 1 = .ok () ↔ R.innerHeader layer p

/-! ### Leaf and inner operations -/

variable {H : HostFunctionsProvider} {P : Prost} {S : Set Bytes} {f : LeafFormat}

theorem doHash_sha256_yields {data x : Bytes} :
    (doHash H .sha256 data).Yields x S ↔ H.sha data = x ∧ data ∈ S := yields_query

theorem doHash_noHash_yields {data x : Bytes} :
    (doHash H .noHash data).Yields x S ↔ data = x := yields_pure

theorem hashOpOf_zero : hashOpOf 0 = .noHash := rfl

theorem hashOpOf_one : hashOpOf 1 = .sha256 := rfl

theorem hashKey_yields {key x : Bytes} :
    (doHash H (hashOpOf (if f.hashedKeys then 1 else 0)) key).Yields x S ↔
      x = f.treeKey H key ∧ (f.hashedKeys → key ∈ S) := by
  unfold LeafFormat.treeKey
  by_cases hf : f.hashedKeys
  · simp only [hf, if_true, hashOpOf_one, doHash_sha256_yields, forall_const, eq_comm]
  · simp only [hf, if_false, hashOpOf_zero, doHash_noHash_yields, false_implies, and_true,
      Bool.false_eq_true, eq_comm]

theorem doLength_eq (data : Bytes) :
    doLength P (lengthOpOf (if f.lengths then 1 else 0)) data = .ok (f.frame data) := by
  unfold LeafFormat.frame
  by_cases hf : f.lengths
  · rw [if_pos hf, if_pos hf, ← P.encodeVarint_eq]
    rfl
  · rw [if_neg hf, if_neg hf]
    rfl

theorem applyLeaf_yields {p key value x : Bytes} :
    (applyLeaf H P (leafOp f p) key value).Yields x S ↔
      key ≠ [] ∧ value ≠ [] ∧ (f.hashedKeys → key ∈ S) ∧ value ∈ S ∧
        f.message H p key value ∈ S ∧ x = H.sha (f.message H p key value) := by
  unfold applyLeaf prepareLeafData
  simp only [leafOp, yields_bind, yields_liftM, ensure_eq_ok, hashKey_yields, doLength_eq,
    hashOpOf_one, doHash_sha256_yields, Outcome.ok.injEq]
  constructor
  · rintro ⟨_, ⟨_, hk, _, ⟨rfl, hkS⟩, rfl⟩, _, ⟨_, hv, _, ⟨rfl, hvS⟩, rfl⟩, rfl, hm⟩
    exact ⟨hk, hv, hkS, hvS, hm, rfl⟩
  · rintro ⟨hk, hv, hkS, hvS, hm, rfl⟩
    exact ⟨_, ⟨(), hk, _, ⟨rfl, hkS⟩, rfl⟩, _, ⟨(), hv, _, ⟨rfl, hvS⟩, rfl⟩, rfl, hm⟩

theorem applyInner_yields {op : InnerOp} (hash : op.hash = 1) {child x : Bytes} :
    (applyInner H op child).Yields x S ↔
      child ≠ [] ∧ op.cut.fill child ∈ S ∧ x = H.sha (op.cut.fill child) := by
  unfold applyInner
  simp only [hash, hashOpOf_one, yields_bind, yields_liftM, ensure_eq_ok, doHash_sha256_yields]
  constructor
  · rintro ⟨_, hc, rfl, hm⟩
    exact ⟨hc, hm, rfl⟩
  · rintro ⟨hc, hm, rfl⟩
    exact ⟨(), hc, rfl, hm⟩

theorem ensureLeaf_eq_ok {leaf : LeafOp} :
    ensureLeaf leaf (leafOp f [0]) = .ok () ↔
      leaf = leafOp f leaf.prefix_ ∧ LeafHead leaf.prefix_ := by
  unfold ensureLeaf
  simp only [seq_eq_ok, ensure_eq_ok, hasPrefix_iff, leafHead_iff]
  cases leaf
  simp only [leafOp, LeafOp.mk.injEq, eq_comm, and_assoc, true_and]

/-! ### Runs without panics -/

section NoPanic

variable (H : HostFunctionsProvider) (P : Prost)

theorem doHash_returns (hash : HashOp) (data : Bytes) : (doHash H hash data).Returns := by
  cases hash with
  | sha256 => exact returns_query _ _
  | bitcoin => exact (returns_query _ _).bind fun _ => returns_pure _
  | _ => exact returns_pure _

theorem doLength_noPanic (length : LengthOp) (data : Bytes) :
    Outcome.NoPanic (doLength P length data) := by
  cases length with
  | require32Bytes => exact (noPanic_ensure _ _).bind fun _ _ => noPanic_ok _
  | require64Bytes => exact (noPanic_ensure _ _).bind fun _ _ => noPanic_ok _
  | varRlp => exact noPanic_err _
  | _ => exact noPanic_ok _

theorem applyLeaf_noPanic (leaf : LeafOp) (key value : Bytes) :
    (applyLeaf H P leaf key value).NoPanic := by
  have hdata (prehash : HashOp) (length : LengthOp) (data : Bytes) :
      (prepareLeafData H P prehash length data).NoPanic :=
    (noPanic_liftM (noPanic_ensure _ _)).bind fun _ =>
      (doHash_returns H _ _).noPanic.bind fun _ => noPanic_liftM (doLength_noPanic P _ _)
  exact (hdata _ _ _).bind fun _ => (hdata _ _ _).bind fun _ => (doHash_returns H _ _).noPanic

theorem applyInner_noPanic (inner : InnerOp) (child : Bytes) :
    (applyInner H inner child).NoPanic :=
  (noPanic_liftM (noPanic_ensure _ _)).bind fun _ => (doHash_returns H _ _).noPanic

theorem ensureChildSize_noPanic (spec : Option ProofSpec) (hash : Bytes) :
    (ensureChildSize spec hash).NoPanic := by
  unfold ensureChildSize
  split
  · split_ifs
    exacts [noPanic_err _, noPanic_ok _]
  · exact noPanic_ok _

theorem calculateStep_noPanic (spec : Option ProofSpec) (hash : Bytes) (step : InnerOp) :
    (calculateStep H spec hash step).NoPanic :=
  (applyInner_noPanic H _ _).bind fun _ =>
    (noPanic_liftM (ensureChildSize_noPanic _ _)).bind fun _ => noPanic_pure _

theorem calculatePath_noPanic (spec : Option ProofSpec) (hash : Bytes) (path : List InnerOp) :
    (calculatePath H spec hash path).NoPanic := by
  induction path generalizing hash with
  | nil => exact noPanic_pure _
  | cons step path ih => exact (calculateStep_noPanic H _ _ _).bind fun hash => ih hash

theorem calculateExistenceRootForSpec_noPanic (proof : ExistenceProof) (spec : Option ProofSpec) :
    (calculateExistenceRootForSpec H P proof spec).NoPanic := by
  refine (noPanic_liftM (noPanic_ensure _ _)).bind fun _ => ?_
  refine (noPanic_liftM (noPanic_ensure _ _)).bind fun _ => ?_
  cases proof.leaf with
  | some leaf =>
    exact (applyLeaf_noPanic H P _ _ _).bind fun _ => calculatePath_noPanic H _ _ _
  | none => exact noPanic_liftM (noPanic_err _)

theorem keyForComparison_returns (spec : ProofSpec) (key : Bytes) :
    (keyForComparison H spec key).Returns := by
  unfold keyForComparison
  split_ifs
  exacts [doHash_returns H _ _, returns_pure _]

theorem keyBefore_returns (spec : ProofSpec) (a b : Bytes) : (keyBefore H spec a b).Returns :=
  (keyForComparison_returns H _ _).bind fun _ =>
    (keyForComparison_returns H _ _).bind fun _ => returns_pure _

theorem ensureIavlPrefix_noPanic (p : Bytes) (minHeight : ℤ) :
    Outcome.NoPanic (ensureIavlPrefix P p minHeight) := by
  intro q
  simp only [ensureIavlPrefix, ne_eq, bind_eq_panic, okOr_ne_panic, ensure_ne_panic, pure_eq,
    reduceCtorEq, and_false, exists_false, or_self, not_false_eq_true]

theorem ensureLeaf_noPanic (leaf leafSpec : LeafOp) :
    Outcome.NoPanic (ensureLeaf leaf leafSpec) := by
  simp only [ensureLeaf, noPanic_ensure_bind_iff]
  exact fun _ _ _ _ => noPanic_ensure _ _

theorem ensureLeafPrefix_noPanic (p : Bytes) (spec : ProofSpec) :
    Outcome.NoPanic (ensureLeafPrefix P p spec) := by
  unfold ensureLeafPrefix
  split_ifs
  · exact noPanic_ok ()
  · refine (ensureIavlPrefix_noPanic P p 0).bind fun r _ => ?_
    cases r with
    | none => exact noPanic_ok ()
    | some n => exact noPanic_ensure _ _

theorem ensureInnerPrefix_noPanic (p : Bytes) (spec : ProofSpec) (minHeight : ℤ) (hash : Int32) :
    Outcome.NoPanic (ensureInnerPrefix P p spec minHeight hash) := by
  unfold ensureInnerPrefix
  split_ifs
  · exact noPanic_ok ()
  · refine (ensureIavlPrefix_noPanic P p minHeight).bind fun r _ => ?_
    cases r with
    | none => exact noPanic_ok ()
    | some n => exact (noPanic_ensure _ _).bind fun _ _ => noPanic_ensure _ _

end NoPanic

namespace Implements

variable {spec : ProofSpec} {inner : InnerSpec} {R : Rules} (I : Implements P spec inner R)

include I

theorem binary : BinaryInner inner R.slots := I.shape

/-! ### The checks of an existence proof -/

theorem ensureSteps_eq_ok {idx : ℕ} {path : List InnerOp} :
    ensureSteps P spec idx path = .ok () ↔
      (∀ op ∈ path, op.hash = 1) ∧ R.CutsOk (idx + 1) (path.map InnerOp.cut) := by
  induction path generalizing idx with
  | nil => simp [ensureSteps, Rules.CutsOk]
  | cons op path ih =>
    have hlo := R.slots.lo_pos
    have hlayer : (idx : ℤ) + 1 = (idx + 1 : ℕ) := by push_cast; rfl
    rw [ensureSteps, seq_eq_ok, seq_eq_ok, ih, I.binary.ensureInner_eq_ok I.leafSpec I.innerSpec,
      I.innerHash, hlayer, List.forall_mem_cons, List.map_cons, Rules.CutsOk, Rules.InnerCut,
      innerHead_iff]
    -- the code rejects empty prefixes because they are too short
    have hne : R.slots.lo ≤ op.prefix_.length → op.prefix_ ≠ [] := by
      rintro h he
      rw [he, List.length_nil] at h
      omega
    constructor
    · rintro ⟨hheader, ⟨hhash, hleaf, hmin, hmax, hsuffix⟩, hpath, hcuts⟩
      rw [hhash] at hheader
      exact ⟨⟨hhash, hpath⟩, ⟨I.ensureInnerPrefix_eq_ok.1 hheader, ⟨hne hmin, hleaf⟩, hmin, hmax,
        hsuffix⟩, hcuts⟩
    · rintro ⟨⟨hhash, hpath⟩, ⟨hheader, ⟨-, hleaf⟩, hmin, hmax, hsuffix⟩, hcuts⟩
      rw [hhash]
      exact ⟨I.ensureInnerPrefix_eq_ok.2 hheader, ⟨rfl, hleaf, hmin, hmax, hsuffix⟩, hpath, hcuts⟩

theorem ensureSteps_noPanic (idx : ℕ) (path : List InnerOp) :
    Outcome.NoPanic (ensureSteps P spec idx path) := by
  induction path generalizing idx with
  | nil => exact noPanic_ok ()
  | cons op path ih =>
    refine (ensureInnerPrefix_noPanic P _ _ _ _).bind fun _ _ => ?_
    exact (I.binary.ensureInner_noPanic I.leafSpec I.innerSpec op).bind fun _ _ => ih _

theorem ensureDepth_eq (depth : ℕ) : ensureDepth spec depth = .ok () := by
  unfold ensureDepth
  rw [if_neg (by simp [I.minDepth])]

theorem checkExistenceSpec_eq_ok {proof : ExistenceProof} :
    checkExistenceSpec P proof spec = .ok () ↔
      Canonical R.leaves proof ∧ R.LeafPrefix proof.opening.prefix_ ∧
        R.CutsOk 1 proof.opening.cuts := by
  unfold checkExistenceSpec
  rw [I.leafSpec]
  cases hleaf : proof.leaf with
  | none =>
    simp only [reduceCtorEq, false_iff]
    rintro ⟨⟨⟨p, hp⟩, -⟩, -⟩
    rw [hleaf] at hp
    contradiction
  | some leaf =>
    have hpre : proof.opening.prefix_ = leaf.prefix_ := by
      simp only [ExistenceProof.opening, hleaf, Option.map_some, Option.getD_some]
    rw [hpre]
    simp only [seq_eq_ok, ensureLeaf_eq_ok, I.ensureDepth_eq, I.ensureLeafPrefix_eq_ok,
      I.ensureSteps_eq_ok, Rules.LeafPrefix, zero_add, true_and]
    constructor
    · rintro ⟨hheader, ⟨hop, hhead⟩, hhash, hcuts⟩
      exact ⟨⟨⟨leaf.prefix_, hop ▸ hleaf⟩, hhash⟩, ⟨hheader, hhead⟩, hcuts⟩
    · rintro ⟨⟨⟨p, hp⟩, hhash⟩, ⟨hheader, hhead⟩, hcuts⟩
      rw [hleaf, Option.some.injEq] at hp
      exact ⟨hheader, ⟨by rw [hp]; rfl, hhead⟩, hhash, hcuts⟩

theorem checkExistenceSpec_noPanic (proof : ExistenceProof) :
    Outcome.NoPanic (checkExistenceSpec P proof spec) := by
  unfold checkExistenceSpec
  rw [I.leafSpec]
  cases proof.leaf with
  | none => exact noPanic_err _
  | some leaf =>
    refine (ensureLeafPrefix_noPanic P _ _).bind fun _ _ => ?_
    refine (ensureLeaf_noPanic _ _).bind fun _ _ => ?_
    rw [I.ensureDepth_eq, ok_bind]
    exact I.ensureSteps_noPanic _ _

/-! ### The root of an existence proof -/

theorem ensureChildSize_eq (m : Bytes) : ensureChildSize (some spec) (H.sha m) = .ok () := by
  have hc := R.slots.child_le
  simp only [ensureChildSize, Option.bind_some, I.innerSpec, I.binary.asUsize_childSize,
    H.length_sha]
  rw [if_neg (by omega)]

theorem calculateStep_yields {op : InnerOp} (hash : op.hash = 1) {m x : Bytes} :
    (calculateStep H (some spec) (H.sha m) op).Yields x S ↔
      op.cut.fill (H.sha m) ∈ S ∧ x = H.sha (op.cut.fill (H.sha m)) := by
  simp only [calculateStep, yields_bind, applyInner_yields hash, yields_liftM, yields_pure]
  constructor
  · rintro ⟨_, ⟨-, hm, rfl⟩, -, -, rfl⟩
    exact ⟨hm, rfl⟩
  · rintro ⟨hm, rfl⟩
    exact ⟨_, ⟨H.sha_ne_nil m, hm, rfl⟩, (), I.ensureChildSize_eq _, rfl⟩

theorem calculatePath_yields {path : List InnerOp} (hash : ∀ op ∈ path, op.hash = 1) {m x : Bytes} :
    (calculatePath H (some spec) (H.sha m) path).Yields x S ↔
      (∀ q ∈ climbImages H.sha (H.sha m) (path.map InnerOp.cut), q ∈ S) ∧
        climb H.sha (H.sha m) (path.map InnerOp.cut) = x := by
  induction path generalizing m with
  | nil => simp [calculatePath, climbImages, climb]
  | cons op path ih =>
    rw [List.forall_mem_cons] at hash
    simp only [calculatePath, yields_bind, I.calculateStep_yields hash.1, List.map_cons,
      climbImages, climb, List.forall_mem_cons]
    constructor
    · rintro ⟨_, ⟨hm, rfl⟩, h⟩
      rw [ih hash.2] at h
      exact ⟨⟨hm, h.1⟩, h.2⟩
    · rintro ⟨⟨hm, h⟩, h'⟩
      exact ⟨_, ⟨hm, rfl⟩, (ih hash.2).2 ⟨h, h'⟩⟩

theorem calculateExistenceRootForSpec_yields {proof : ExistenceProof}
    (canonical : Canonical R.leaves proof) {x : Bytes} :
    (calculateExistenceRootForSpec H P proof (some spec)).Yields x S ↔
      proof.key ≠ [] ∧ proof.value ≠ [] ∧ (R.leaves.hashedKeys → proof.key ∈ S) ∧
        proof.value ∈ S ∧ proof.opening.message R H ∈ S ∧
        (∀ q ∈ climbImages H.sha (H.sha (proof.opening.message R H)) proof.opening.cuts, q ∈ S) ∧
        climb H.sha (H.sha (proof.opening.message R H)) proof.opening.cuts = x := by
  obtain ⟨p, hp⟩ := canonical.leaf
  have hmsg : proof.opening.message R H = R.leaves.message H p proof.key proof.value := by
    simp only [Opening.message, ExistenceProof.opening, hp, Option.map_some, Option.getD_some,
      leafOp]
  unfold calculateExistenceRootForSpec
  simp only [hp, yields_bind, yields_liftM, ensure_eq_ok, applyLeaf_yields, hmsg]
  constructor
  · rintro ⟨_, hk, _, hv, _, ⟨-, -, hkS, hvS, hm, rfl⟩, h⟩
    rw [I.calculatePath_yields canonical.path] at h
    exact ⟨hk, hv, hkS, hvS, hm, h⟩
  · rintro ⟨hk, hv, hkS, hvS, hm, h⟩
    exact ⟨(), hk, (), hv, _, ⟨hk, hv, hkS, hvS, hm, rfl⟩,
      (I.calculatePath_yields canonical.path).2 h⟩

/-- An existence proof is accepted if and only if its opening is valid. -/
theorem verifyExistence_yields {proof : ExistenceProof} {root key value : Bytes} :
    (verifyExistence H P proof spec root key value).Yields () S ↔
      Canonical R.leaves proof ∧ proof.key = key ∧ proof.value = value ∧
        proof.opening.Valid R H S root := by
  unfold verifyExistence
  simp only [yields_bind, yields_liftM, ensure_eq_ok, I.checkExistenceSpec_eq_ok]
  constructor
  · rintro ⟨_, ⟨hc, hpre, hcuts⟩, _, hkey, _, hvalue, x, hx, rfl⟩
    rw [I.calculateExistenceRootForSpec_yields hc] at hx
    obtain ⟨hk, hv, hkS, hvS, hm, himages, hclimb⟩ := hx
    exact ⟨hc, hkey, hvalue, ⟨hk, hv, hpre, hcuts, hkS, hvS, hm, himages, hclimb⟩⟩
  · rintro ⟨hc, hkey, hvalue, h⟩
    refine ⟨(), ⟨hc, h.leafPrefix, h.cutsOk⟩, (), hkey, (), hvalue, root, ?_, rfl⟩
    exact (I.calculateExistenceRootForSpec_yields hc).2
      ⟨h.key_ne, h.value_ne, h.key_mem, h.value_mem, h.message_mem, h.climb_mem, h.root_eq⟩

theorem verifyExistence_noPanic (proof : ExistenceProof) (root key value : Bytes) :
    (verifyExistence H P proof spec root key value).NoPanic := by
  refine (noPanic_liftM (I.checkExistenceSpec_noPanic proof)).bind fun _ => ?_
  refine (noPanic_liftM (noPanic_ensure _ _)).bind fun _ => ?_
  refine (noPanic_liftM (noPanic_ensure _ _)).bind fun _ => ?_
  exact (calculateExistenceRootForSpec_noPanic H P proof _).bind fun _ =>
    noPanic_liftM (noPanic_ensure _ _)

/-! ### Non-existence proofs -/

theorem keyForComparison_yields {key x : Bytes} :
    (keyForComparison H spec key).Yields x S ↔
      x = R.leaves.treeKey H key ∧ (R.leaves.hashedKeys → key ∈ S) := by
  unfold keyForComparison
  rw [I.prehash, I.leafSpec, Option.map_some, Option.getD_some, ← hashKey_yields]
  by_cases hf : R.leaves.hashedKeys
  · rw [if_pos hf]
    rfl
  · rw [if_neg hf]
    simp only [hf, if_false, Bool.false_eq_true, hashOpOf_zero]
    rfl

theorem keyBefore_yields {a b : Bytes} {r : Bool} :
    (keyBefore H spec a b).Yields r S ↔
      r = decide (R.leaves.treeKey H a < R.leaves.treeKey H b) ∧
        (R.leaves.hashedKeys → a ∈ S ∧ b ∈ S) := by
  unfold keyBefore
  simp only [yields_bind, I.keyForComparison_yields, yields_pure]
  constructor
  · rintro ⟨_, ⟨rfl, ha⟩, _, ⟨rfl, hb⟩, rfl⟩
    exact ⟨rfl, fun hf => ⟨ha hf, hb hf⟩⟩
  · rintro ⟨rfl, h⟩
    exact ⟨_, ⟨rfl, fun hf => (h hf).1⟩, _, ⟨rfl, fun hf => (h hf).2⟩, rfl⟩

/-- A side is accepted if its opening is valid and its key passes the order test. -/
theorem verifySide_yields {side : Option ExistenceProof} {root : Bytes}
    {inOrder : Bytes → Hashing Bool} {msg : String} :
    (verifySide H P side spec root inOrder msg).Yields () S ↔
      ∀ proof ∈ side, Canonical R.leaves proof ∧ proof.opening.Valid R H S root ∧
        (inOrder proof.key).Yields true S := by
  unfold verifySide
  cases side with
  | none => simp
  | some proof =>
    simp only [yields_bind, I.verifyExistence_yields, yields_liftM, ensure_eq_ok, Option.mem_some,
      forall_eq', true_and]
    constructor
    · rintro ⟨_, ⟨hc, h⟩, r, hr, rfl⟩
      exact ⟨hc, h, hr⟩
    · rintro ⟨hc, h, hr⟩
      exact ⟨(), ⟨hc, h⟩, true, hr, rfl⟩

theorem verifySide_noPanic (side : Option ExistenceProof) (root : Bytes)
    {inOrder : Bytes → Hashing Bool} (h : ∀ key, (inOrder key).NoPanic) (msg : String) :
    (verifySide H P side spec root inOrder msg).NoPanic := by
  cases side with
  | none => exact noPanic_pure ()
  | some proof =>
    exact (I.verifyExistence_noPanic _ _ _ _).bind fun _ => (h _).bind fun _ =>
      noPanic_liftM (noPanic_ensure _ _)

theorem ensureAdjacent_eq_ok {left right : Option ExistenceProof} :
    ensureAdjacent spec left right = .ok () ↔
      R.slots.GapCuts ((left.map ExistenceProof.opening).map Opening.cuts)
        ((right.map ExistenceProof.opening).map Opening.cuts) := by
  rw [ensureAdjacent, I.innerSpec]
  cases left with
  | none =>
    cases right with
    | none => simp [Slots.GapCuts]
    | some right => exact I.binary.ensureLeftMost_eq_ok
  | some left =>
    cases right with
    | none => exact I.binary.ensureRightMost_eq_ok
    | some right => exact I.binary.ensureLeftNeighbor_eq_ok

theorem ensureAdjacent_eq_panic {left right : Option ExistenceProof} {p : Panic} :
    ensureAdjacent spec left right = .panic p ↔
      p = .unwrapNone ∧ ∃ l ∈ left, ∃ r ∈ right,
        diverge l.opening.cuts.reverse r.opening.cuts.reverse = none := by
  rw [ensureAdjacent, I.innerSpec]
  cases left with
  | none =>
    cases right with
    | none => simp
    | some right => simpa using I.binary.ensureLeftMost_noPanic right.path p
  | some left =>
    cases right with
    | none => simpa using I.binary.ensureRightMost_noPanic left.path p
    | some right =>
      simp only [Option.mem_some, exists_eq_left']
      exact I.binary.ensureLeftNeighbor_eq_panic

/-- A non-existence proof is accepted if and only if its sides refute the key. -/
theorem verifyNonExistence_yields {proof : NonExistenceProof} {root key : Bytes} :
    (verifyNonExistence H P proof spec root key).Yields () S ↔
      (∀ ex ∈ proof.left, Canonical R.leaves ex) ∧ (∀ ex ∈ proof.right, Canonical R.leaves ex) ∧
        Refutes R H S root key (proof.left.map ExistenceProof.opening)
          (proof.right.map ExistenceProof.opening) := by
  unfold verifyNonExistence
  simp only [yields_bind, I.verifySide_yields, I.keyBefore_yields, true_eq_decide_iff,
    yields_liftM, I.ensureAdjacent_eq_ok]
  constructor
  · rintro ⟨_, hl, _, hr, hgap⟩
    refine ⟨fun ex h => (hl ex h).1, fun ex h => (hr ex h).1, ⟨?_, ?_, ?_, ?_, ?_, hgap⟩⟩
    · exact Option.forall_mem_map.2 fun ex h => (hl ex h).2.1
    · exact Option.forall_mem_map.2 fun ex h => (hl ex h).2.2.1
    · exact Option.forall_mem_map.2 fun ex h => (hr ex h).2.1
    · exact Option.forall_mem_map.2 fun ex h => (hr ex h).2.2.1
    · -- the key is hashed on the side that is there
      intro hf
      cases hleft : proof.left with
      | some ex => exact ((hl ex hleft).2.2.2 hf).2
      | none =>
        cases hright : proof.right with
        | some ex => exact ((hr ex hright).2.2.2 hf).1
        | none =>
          rw [hleft, hright] at hgap
          exact hgap.elim
  · rintro ⟨hl, hr, h⟩
    have hvl := Option.forall_mem_map.1 h.left_valid
    have hvr := Option.forall_mem_map.1 h.right_valid
    refine ⟨(), fun ex hex => ⟨hl ex hex, hvl ex hex, ?_, ?_⟩, (), fun ex hex => ⟨hr ex hex,
      hvr ex hex, ?_, ?_⟩, h.gap⟩
    · exact Option.forall_mem_map.1 h.left_lt ex hex
    · exact fun hf => ⟨(hvl ex hex).key_mem hf, h.key_mem hf⟩
    · exact Option.forall_mem_map.1 h.lt_right ex hex
    · exact fun hf => ⟨h.key_mem hf, (hvr ex hex).key_mem hf⟩

/-- The only panic: two valid openings on both sides of the key, one path being a tail of the
other. -/
theorem verifyNonExistence_ends_panic {proof : NonExistenceProof} {root key : Bytes} {p : Panic} :
    (verifyNonExistence H P proof spec root key).Ends (.panic p) S ↔
      p = .unwrapNone ∧ ∃ left ∈ proof.left, ∃ right ∈ proof.right,
        Canonical R.leaves left ∧ left.opening.Valid R H S root ∧
        Canonical R.leaves right ∧ right.opening.Valid R H S root ∧
        R.leaves.treeKey H left.key < R.leaves.treeKey H key ∧
        R.leaves.treeKey H key < R.leaves.treeKey H right.key ∧
        (R.leaves.hashedKeys → key ∈ S) ∧
        diverge left.opening.cuts.reverse right.opening.cuts.reverse = none := by
  have hleft := I.verifySide_noPanic (H := H) proof.left root
    fun k => (keyBefore_returns H spec k key).noPanic
  have hright := I.verifySide_noPanic (H := H) proof.right root
    fun k => (keyBefore_returns H spec key k).noPanic
  unfold verifyNonExistence
  simp only [ends_panic_bind, (hleft _).not_ends, (hright _).not_ends, false_or,
    I.verifySide_yields, I.keyBefore_yields, true_eq_decide_iff, ends_panic_liftM,
    I.ensureAdjacent_eq_panic]
  constructor
  · rintro ⟨_, hl, _, hr, rfl, left, hleft, right, hright, hdiv⟩
    obtain ⟨hcl, hvl, hlt, hkl⟩ := hl left hleft
    obtain ⟨hcr, hvr, hgt, -⟩ := hr right hright
    exact ⟨rfl, left, hleft, right, hright, hcl, hvl, hcr, hvr, hlt, hgt, fun hf => (hkl hf).2,
      hdiv⟩
  · rintro ⟨rfl, left, hleft, right, hright, hcl, hvl, hcr, hvr, hlt, hgt, hkey, hdiv⟩
    refine ⟨(), fun ex hex => ?_, (), fun ex hex => ?_, rfl, left, hleft, right, hright, hdiv⟩
    · rw [← Option.mem_unique hleft hex]
      exact ⟨hcl, hvl, hlt, fun hf => ⟨hvl.key_mem hf, hkey hf⟩⟩
    · rw [← Option.mem_unique hright hex]
      exact ⟨hcr, hvr, hgt, fun hf => ⟨hkey hf, hvr.key_mem hf⟩⟩

end Implements

end Ics23.Rust
