import Ics23.Go.Refinement

/-!
# Go: computing the root of a proof

`Calculate` computes the root of a proof without a spec, and takes the first side of a non-existence
proof.  For a proof that the verification functions accept, under whatever spec, it returns the root
they were given, and every side of the proof has that root (`calculate_of_accepted`).

Membership never panics, whatever numbers and nil pointers there are in the spec
(`verifyMembership_returns`): the checks of the spec refuse a path before the inner spec is
followed.
-/

namespace Ics23.Go

open Outcome Logged

variable (H : HostFunctionsProvider)

/-! ### Roots of proofs -/

/-- `ExistenceProof.Calculate`. -/
def ExistenceProof.calculateRoot (p : ExistenceProof) : Hashing Bytes := p.calculate H none

/-- `NonExistenceProof.Calculate`. -/
def NonExistenceProof.calculateRoot (p : NonExistenceProof) : Hashing Bytes :=
  match p.left, p.right with
  | some left, _ => left.calculateRoot H
  | none, some right => right.calculateRoot H
  | none, none => (fail "nonexistence proof has empty Left and Right proof" : Result Bytes)

/-- `CommitmentProof.Calculate`.  Existence proofs are asked for their leaf through a getter, which
takes a nil pointer; the fields of a non-existence proof are read through the pointer. -/
def CommitmentProof.calculateRoot (p : CommitmentProof) : Hashing Bytes :=
  match p with
  | .exist (some ex) => ex.calculateRoot H
  | .exist Option.none => (fail "existence Proof needs defined LeafOp" : Result Bytes)
  | .nonexist (some non) => non.calculateRoot H
  | .nonexist Option.none => (.panic .nilDereference : Result Bytes)
  | _ => (fail "unrecognized proof type" : Result Bytes)

/-- The existence proofs in a proof. -/
def CommitmentProof.embedded : CommitmentProof → List ExistenceProof
  | .exist ex => ex.toList
  | .nonexist non => non.toList.flatMap fun non => non.left.toList ++ non.right.toList
  | _ => []

/-! ### Without a spec -/

variable {H} {S : Set Bytes} {spec : ProofSpec}

/-- The test of the child size changes no hash. -/
theorem calculatePath_none {path : List InnerOp} {res x : Bytes}
    (h : (calculatePath H (some spec) res path).Yields x S) :
    (calculatePath H none res path).Yields x S := by
  induction path generalizing res with
  | nil => exact h
  | cons step path ih =>
    obtain ⟨res', hstep, h⟩ := yields_bind.1 h
    obtain ⟨_, -, h⟩ := yields_bind.1 h
    exact yields_bind.2 ⟨res', hstep, yields_bind.2 ⟨(), yields_liftM.2 rfl, ih h⟩⟩

theorem ExistenceProof.calculateRoot_of_calculate {p : ExistenceProof} {x : Bytes}
    (h : (p.calculate H (some spec)).Yields x S) : (p.calculateRoot H).Yields x S := by
  unfold calculateRoot
  unfold calculate at h ⊢
  cases hleaf : p.leaf with
  | none =>
    rw [hleaf] at h
    simp at h
  | some leaf =>
    rw [hleaf] at h
    obtain ⟨res, hres, h⟩ := yields_bind.1 h
    exact yields_bind.2 ⟨res, hres, calculatePath_none h⟩

/-- The root of an accepted existence proof. -/
theorem ExistenceProof.calculateRoot_of_verify {p : ExistenceProof} {root key value : Bytes}
    (h : (p.verify H spec root key value).Yields () S) : (p.calculateRoot H).Yields root S := by
  unfold verify at h
  simp only [yields_bind, yields_liftM, yields_mapErr, ensure_eq_ok] at h
  obtain ⟨_, -, _, -, _, -, x, hx, rfl⟩ := h
  exact calculateRoot_of_calculate hx

/-- All sides of an accepted non-existence proof have its root. -/
theorem NonExistenceProof.calculateRoot_of_verify {p : NonExistenceProof} {root key : Bytes}
    (h : (p.verify H spec root key).Yields () S) :
    (p.calculateRoot H).Yields root S ∧ (∀ ex ∈ p.left, (ex.calculateRoot H).Yields root S) ∧
      ∀ ex ∈ p.right, (ex.calculateRoot H).Yields root S := by
  unfold verify at h
  simp only [yields_seq, verifySide_yields, yields_liftM, ensure_eq_ok] at h
  obtain ⟨hl, hr, hsome, -⟩ := h
  have hleft : ∀ ex ∈ p.left, (ex.calculateRoot H).Yields root S :=
    fun ex hex => ExistenceProof.calculateRoot_of_verify (hl ex hex)
  have hright : ∀ ex ∈ p.right, (ex.calculateRoot H).Yields root S :=
    fun ex hex => ExistenceProof.calculateRoot_of_verify (hr ex hex)
  refine ⟨?_, hleft, hright⟩
  unfold calculateRoot
  cases hpl : p.left with
  | some left => exact hleft left hpl
  | none =>
    cases hpr : p.right with
    | some right => exact hright right hpr
    | none =>
      rw [hpl, hpr] at hsome
      exact absurd ⟨rfl, rfl⟩ hsome

variable (H)

/-- The root that is computed from an accepted proof is the one it was accepted for, and so is that
of every existence proof in it. -/
theorem calculate_of_accepted (spec : ProofSpec) (proof : CommitmentProof) (root key value : Bytes)
    (accepted : (verifyMembership H spec root (some proof) key value).out = .ok true ∨
      (verifyNonMembership H spec root (some proof) key).out = .ok true) :
    (proof.calculateRoot H).out = .ok root ∧
      ∀ ex ∈ proof.embedded, (ex.calculateRoot H).out = .ok root := by
  rcases accepted with accepted | accepted
  · obtain ⟨ex, hproof, hverify⟩ := verifyMembership_yields_true.1 (yields_univ_iff.2 accepted)
    obtain rfl := Option.some.inj hproof
    have hroot := ExistenceProof.calculateRoot_of_verify hverify
    refine ⟨hroot.out_eq, fun ex' hex' => ?_⟩
    obtain rfl : ex' = ex := by simpa [CommitmentProof.embedded] using hex'
    exact hroot.out_eq
  · obtain ⟨non, hproof, hverify⟩ :=
      verifyNonMembership_yields_true.1 (yields_univ_iff.2 accepted)
    obtain rfl := Option.some.inj hproof
    obtain ⟨hroot, hl, hr⟩ := NonExistenceProof.calculateRoot_of_verify hverify
    refine ⟨hroot.out_eq, fun ex hex => ?_⟩
    simp only [CommitmentProof.embedded, Option.toList_some, List.flatMap_cons, List.flatMap_nil,
      List.append_nil, List.mem_append, Option.mem_toList] at hex
    exact hex.elim (fun h => (hl ex h).out_eq) (fun h => (hr ex h).out_eq)

/-- The proof of a leaf that is the right child of the left child of the root. -/
def secondLeaf : ExistenceProof where
  key := some [1]
  value := [2]
  leaf := tendermintSpec.leafSpec
  path :=
    [{ hash := 1, prefix_ := 1 :: List.replicate 32 7, suffix := none },
      { hash := 1, prefix_ := [1], suffix := some (List.replicate 32 9) }]

theorem secondLeaf_calculate :
    let sha := HostFunctionsProvider.sha256Only.sha
    let leaf := sha ([0, 1, 1, 32] ++ sha [2])
    let root := sha ([1] ++ sha (1 :: List.replicate 32 7 ++ leaf) ++ List.replicate 32 9)
    (CommitmentProof.calculateRoot .sha256Only (.exist (some secondLeaf))).out = .ok root ∧
      ∀ ex ∈ (CommitmentProof.exist (some secondLeaf)).embedded,
        (ex.calculateRoot .sha256Only).out = .ok root :=
  calculate_of_accepted .sha256Only tendermintSpec (.exist (some secondLeaf)) _ [1] [2]
    (.inl (by decide +kernel))

/-! ### Panics of membership -/

/-- Where the checks of a path pass, there is an inner spec, or no step that needs one. -/
theorem innerSpec_of_checkPath {spec : ProofSpec} {layerNum : ℤ} {path : List InnerOp}
    (h : checkPath spec layerNum path = .ok ()) : path = [] ∨ spec.innerSpec ≠ none := by
  cases path with
  | nil => exact .inl rfl
  | cons op path =>
    refine .inr fun hnone => ?_
    rw [checkPath, seq_eq_ok, mapErr_eq_ok, InnerOp.checkAgainstSpec, hnone] at h
    exact absurd h.1 (by simp)

theorem calculatePath_noPanic {spec : ProofSpec} {path : List InnerOp}
    (h : path = [] ∨ spec.innerSpec ≠ none) (res : Bytes) :
    (calculatePath H (some spec) res path).NoPanic := by
  induction path generalizing res with
  | nil => exact noPanic_pure res
  | cons op path ih =>
    obtain ⟨inner, hinner⟩ := Option.ne_none_iff_exists'.1 (h.resolve_left (by simp))
    refine ((InnerOp.apply_noPanic H op res).mapErr _).bind fun res' => ?_
    refine (noPanic_liftM ?_).bind fun _ => ih (.inr (by simp [hinner])) res'
    rw [checkChildSize, hinner, deref, ok_bind]
    exact noPanic_ensure _ _

/-- Verifying an existence proof ends in nil or in an error. -/
theorem ExistenceProof.verify_noPanic_of_any (p : ExistenceProof) (spec : ProofSpec)
    (root key value : Bytes) : (p.verify H spec root key value).NoPanic := by
  unfold verify
  cases hcheck : p.checkAgainstSpec spec with
  | panic q => exact absurd hcheck (p.checkAgainstSpec_noPanic spec q)
  | err msg => exact Outcome.noPanic_err msg
  | ok u =>
    refine (noPanic_liftM (noPanic_ok u)).bind fun _ => ?_
    refine (noPanic_liftM (noPanic_ensure _ _)).bind fun _ => ?_
    refine (noPanic_liftM (noPanic_ensure _ _)).bind fun _ => ?_
    refine Logged.NoPanic.bind (Logged.NoPanic.mapErr ?_ _) fun _ =>
      noPanic_liftM (noPanic_ensure _ _)
    unfold checkAgainstSpec at hcheck
    unfold calculate
    cases hleaf : p.leaf with
    | none => exact noPanic_liftM (noPanic_err _)
    | some leaf =>
      simp only [hleaf, seq_eq_ok] at hcheck
      exact ((LeafOp.apply_noPanic H _ _ _).mapErr _).bind fun res =>
        calculatePath_noPanic H (innerSpec_of_checkPath hcheck.2.2.2) res

/-- Membership returns a boolean under every spec. -/
theorem verifyMembership_returns (spec : ProofSpec) (root : Bytes)
    (proof : Option CommitmentProof) (key value : Bytes) :
    (verifyMembership H spec root proof key value).Returns := by
  unfold verifyMembership
  cases proof.bind CommitmentProof.getExist with
  | none => exact returns_pure false
  | some ep => exact returns_isOk_iff.2 (ep.verify_noPanic_of_any H spec root key value)

end Ics23.Go
