import Ics23.Rust.Refinement
import Ics23.Trees

/-!
# What the Rust verification functions say about trees

For a spec that follows the rules `R` (`Implements`), `verifyMembership` returns `true` only for a
valid opening of the key and the value, and `verifyNonMembership` only for a refutation of the key,
whatever the shape of the commitment proof.  With a tree format that matches the rules this gives
soundness (`mem_of_verifyMembership`, `encloses_of_verifyNonMembership`) and completeness
(`verifyMembership_honest`, `verifyNonMembership_honest`).
-/

namespace Ics23.Rust

open Outcome Logged

variable {H : HostFunctionsProvider} {P : Prost} {S : Set Bytes}

/-! ### Panics -/

theorem inRange_returns (spec : ProofSpec) (non : NonExistenceProof) (key : Bytes) :
    (inRange H spec non key).Returns := by
  have side (x : Option ExistenceProof) {inOrder : Bytes → Hashing Bool}
      (h : ∀ k, (inOrder k).Returns) : (sideInOrder x inOrder).Returns := by
    cases x with
    | none => exact returns_pure _
    | some ex => exact h _
  refine (side _ fun k => keyBefore_returns H spec k key).bind fun b => ?_
  cases b with
  | true => exact side _ fun k => keyBefore_returns H spec key k
  | false => exact returns_pure _

theorem getNonexistProof_returns (proof : CommitmentProof) (key : Bytes) (spec : ProofSpec) :
    (getNonexistProof H proof key spec).Returns := by
  cases proof with
  | nonexist non =>
    refine (inRange_returns spec non key).bind fun b => ?_
    cases b <;> exact returns_pure _
  | batch batch =>
    show (findNonexist H spec key batch.entries).Returns
    induction batch.entries with
    | nil => exact returns_pure _
    | cons entry entries ih =>
      cases entry with
      | nonexist non =>
        refine (inRange_returns spec non key).bind fun b => ?_
        cases b with
        | true => exact returns_pure _
        | false => exact ih
      | _ => exact ih
  | _ => exact returns_pure _

theorem sideInOrder_yields_true {side : Option ExistenceProof} {inOrder : Bytes → Hashing Bool} :
    (sideInOrder side inOrder).Yields true S ↔ ∀ ex ∈ side, (inOrder ex.key).Yields true S := by
  cases side <;> simp [sideInOrder]

theorem inRange_yields_true {spec : ProofSpec} {non : NonExistenceProof} {key : Bytes} :
    (inRange H spec non key).Yields true S ↔
      (∀ ex ∈ non.left, (keyBefore H spec ex.key key).Yields true S) ∧
        ∀ ex ∈ non.right, (keyBefore H spec key ex.key).Yields true S := by
  have hleft :
      (sideInOrder non.left fun left => keyBefore H spec left key).Yields true S ↔ _ :=
    sideInOrder_yields_true
  have hright :
      (sideInOrder non.right fun right => keyBefore H spec key right).Yields true S ↔ _ :=
    sideInOrder_yields_true
  rw [inRange, yields_bind, ← hleft, ← hright]
  constructor
  · rintro ⟨b, hb, h⟩
    cases b with
    | true => exact ⟨hb, h⟩
    | false => simp at h
  · rintro ⟨hb, h⟩
    exact ⟨true, hb, h⟩

/-- The loop over the entries of a batch stops only at a proof that passes the order test. -/
theorem inRange_of_findNonexist {entries : List BatchEntry} {spec : ProofSpec} {key : Bytes}
    {non : NonExistenceProof} (h : (findNonexist H spec key entries).Yields (some non) S) :
    (inRange H spec non key).Yields true S := by
  induction entries with
  | nil => simp [findNonexist] at h
  | cons entry entries ih =>
    cases entry with
    | nonexist n =>
      obtain ⟨b, hb, h⟩ := yields_bind.1 h
      cases b with
      | true =>
        obtain rfl : n = non := by simpa using h
        exact hb
      | false => exact ih h
    | _ => exact ih h

theorem inRange_of_getNonexistProof {proof : CommitmentProof} {spec : ProofSpec} {key : Bytes}
    {non : NonExistenceProof} (h : (getNonexistProof H proof key spec).Yields (some non) S) :
    (inRange H spec non key).Yields true S := by
  cases proof with
  | nonexist n =>
    obtain ⟨b, hb, h⟩ := yields_bind.1 h
    cases b with
    | true =>
      obtain rfl : n = non := by simpa using h
      exact hb
    | false => simp at h
  | batch batch => exact inRange_of_findNonexist h
  | _ => simp [getNonexistProof] at h

/-- Non-membership returns a boolean or panics: all errors are caught. -/
theorem verifyNonMembership_returns_or_panic (proof : CommitmentProof) (spec : ProofSpec)
    (root key : Bytes) :
    (verifyNonMembership H P proof spec root key).Returns ∨
      ∃ p, (verifyNonMembership H P proof spec root key).out = .panic p := by
  obtain ⟨proof', hdec⟩ := decompress_eq_ok proof
  unfold verifyNonMembership
  rw [withDecompressed_eq hdec]
  refine (getNonexistProof_returns proof' key spec).bind_or_panic fun non => ?_
  cases non with
  | none => exact .inl (returns_pure false)
  | some non => exact returns_or_panic_isOk _

/-- Non-membership panics only where the non-existence check does. -/
theorem verifyNonMembership_ends_panic {proof proof' : CommitmentProof}
    (h : decompress proof = .ok proof') {spec : ProofSpec} {root key : Bytes} {p : Panic} :
    (verifyNonMembership H P proof spec root key).Ends (.panic p) S ↔
      ∃ non, (getNonexistProof H proof' key spec).Yields (some non) S ∧
        (verifyNonExistence H P non spec root key).Ends (.panic p) S := by
  unfold verifyNonMembership
  rw [withDecompressed_eq h, ends_panic_bind]
  constructor
  · rintro (h | ⟨non, hget, h⟩)
    · exact absurd h (getNonexistProof_returns proof' key spec).noPanic.not_ends
    · cases non with
      | none => exact absurd h (noPanic_pure false).not_ends
      | some non => exact ⟨non, hget, ends_panic_isOk.1 h⟩
  · rintro ⟨non, hget, h⟩
    exact .inr ⟨some non, hget, ends_panic_isOk.2 h⟩

/-! ### Honest proofs -/

section Honest

variable {E N L : Type} (F : TreeFormat E N L) (H : HostFunctionsProvider) (T : BinTree E N L)

/-- The existence proof of a leaf, given with its path. -/
def honestExistence (p : List Side × L) : ExistenceProof :=
  existenceProof F.leaves (F.opening H T p)

/-- The existence proofs of the leaf with the greatest smaller key and of the one with the least
greater key, whichever exist. -/
def honestNonExistence (key : Bytes) : NonExistenceProof where
  key := key
  left := (T.nearestBelow (F.treeKey H) (F.leaves.treeKey H key)).map (honestExistence F H T)
  right := (T.nearestAbove (F.treeKey H) (F.leaves.treeKey H key)).map (honestExistence F H T)

end Honest

namespace Implements

variable {spec : ProofSpec} {inner : InnerSpec} {R : Rules} (I : Implements P spec inner R)

include I

/-! ### From an accepted proof to openings -/

theorem valid_of_verifyMembership {proof : CommitmentProof} {root key value : Bytes}
    (h : (verifyMembership H P proof spec root key value).Yields true S) :
    ∃ o : Opening, o.Valid R H S root ∧ o.key = key ∧ o.value = value := by
  obtain ⟨proof', hdec⟩ := decompress_eq_ok proof
  unfold verifyMembership at h
  rw [withDecompressed_eq hdec] at h
  cases hget : getExistProof proof' key with
  | none => simp [hget] at h
  | some ex =>
    simp only [hget, yields_isOk_true] at h
    obtain ⟨_, h⟩ := h
    obtain ⟨-, hkey, hvalue, hvalid⟩ := I.verifyExistence_yields.1 h
    exact ⟨ex.opening, hvalid, hkey, hvalue⟩

theorem refutes_of_verifyNonMembership {proof : CommitmentProof} {root key : Bytes}
    (h : (verifyNonMembership H P proof spec root key).Yields true S) :
    ∃ left right, Refutes R H S root key left right := by
  obtain ⟨proof', hdec⟩ := decompress_eq_ok proof
  unfold verifyNonMembership at h
  rw [withDecompressed_eq hdec, yields_bind] at h
  obtain ⟨non, -, h⟩ := h
  cases non with
  | none => simp at h
  | some non =>
    obtain ⟨_, h⟩ := yields_isOk_true.1 h
    exact ⟨_, _, (I.verifyNonExistence_yields.1 h).2.2⟩

/-! ### The order test -/

/-- The order test compares the keys as the tree does. -/
theorem inRange_yields_true {non : NonExistenceProof} {key : Bytes} :
    (inRange H spec non key).Yields true S ↔
      (∀ ex ∈ non.left, R.leaves.treeKey H ex.key < R.leaves.treeKey H key ∧
        (R.leaves.hashedKeys → ex.key ∈ S ∧ key ∈ S)) ∧
      (∀ ex ∈ non.right, R.leaves.treeKey H key < R.leaves.treeKey H ex.key ∧
        (R.leaves.hashedKeys → key ∈ S ∧ ex.key ∈ S)) := by
  simp only [Rust.inRange_yields_true, I.keyBefore_yields, true_eq_decide_iff]

/-! ### Panics of non-membership -/

/-- Under rules that read leaves in one way only, non-membership panics for no proof, root and
key. -/
theorem verifyNonMembership_returns (hread : R.Readable H) (proof : CommitmentProof)
    (root key : Bytes) :
    (verifyNonMembership H P proof spec root key).Returns ∨
      H.ShaCollision {q | q ∈ (verifyNonMembership H P proof spec root key).log} := by
  rcases verifyNonMembership_returns_or_panic (H := H) (P := P) proof spec root key with h | ⟨p, h⟩
  · exact .inl h
  · refine .inr ?_
    by_contra unique
    obtain ⟨proof', hdec⟩ := decompress_eq_ok proof
    obtain ⟨non, -, h⟩ := (verifyNonMembership_ends_panic hdec).1 ⟨h, fun _ hq => hq⟩
    obtain ⟨-, left, -, right, -, -, hl, -, hr, hlt, hgt, -, hdiv⟩ :=
      I.verifyNonExistence_ends_panic.1 h
    exact hl.diverge_ne_none hread (H.injOn_sha unique) hr hlt hgt hdiv

/-! ### From openings to an accepted proof -/

theorem verifyMembership_exist {ex : ExistenceProof} {root : Bytes}
    (canonical : Canonical R.leaves ex) (valid : ex.opening.Valid R H S root) :
    (verifyMembership H P (.exist ex) spec root ex.key ex.value).Yields true S := by
  unfold verifyMembership
  rw [withDecompressed_eq rfl]
  exact yields_isOk_true.2 ⟨(), I.verifyExistence_yields.2 ⟨canonical, rfl, rfl, valid⟩⟩

/-- A refutation is accepted as a non-existence proof. -/
theorem verifyNonMembership_nonexist {non : NonExistenceProof} {root key : Bytes}
    (hl : ∀ ex ∈ non.left, Canonical R.leaves ex) (hr : ∀ ex ∈ non.right, Canonical R.leaves ex)
    (h : Refutes R H S root key (non.left.map ExistenceProof.opening)
      (non.right.map ExistenceProof.opening)) :
    (verifyNonMembership H P (.nonexist non) spec root key).Yields true S := by
  unfold verifyNonMembership
  rw [withDecompressed_eq rfl, yields_bind]
  have hvl := Option.forall_mem_map.1 h.left_valid
  have hvr := Option.forall_mem_map.1 h.right_valid
  have hrange : (inRange H spec non key).Yields true S := by
    refine I.inRange_yields_true.2 ⟨fun ex hex => ⟨?_, ?_⟩, fun ex hex => ⟨?_, ?_⟩⟩
    · exact Option.forall_mem_map.1 h.left_lt ex hex
    · exact fun hf => ⟨(hvl ex hex).key_mem hf, h.key_mem hf⟩
    · exact Option.forall_mem_map.1 h.lt_right ex hex
    · exact fun hf => ⟨h.key_mem hf, (hvr ex hex).key_mem hf⟩
  refine ⟨some non, yields_bind.2 ⟨true, hrange, yields_pure.2 rfl⟩, ?_⟩
  exact yields_isOk_true.2 ⟨(), I.verifyNonExistence_yields.2 ⟨hl, hr, h⟩⟩

/-- Every refutation can be put into a non-existence proof. -/
theorem exists_verifyNonMembership {root key : Bytes} {left right : Option Opening}
    (h : Refutes R H S root key left right) :
    ∃ non, (verifyNonMembership H P (.nonexist non) spec root key).Yields true S := by
  have canonical (x : Option Opening) :
      ∀ ex ∈ x.map (existenceProof R.leaves), Canonical R.leaves ex :=
    Option.forall_mem_map.2 fun o _ => canonical_existenceProof _ o
  have opening (x : Option Opening) :
      (x.map (existenceProof R.leaves)).map ExistenceProof.opening = x := by
    cases x with
    | none => rfl
    | some o => exact congrArg some (opening_existenceProof _ o)
  refine ⟨⟨key, left.map (existenceProof R.leaves), right.map (existenceProof R.leaves)⟩, ?_⟩
  refine I.verifyNonMembership_nonexist (canonical _) (canonical _) ?_
  rw [opening, opening]
  exact h

/-! ### Trees -/

section Trees

variable {E N L : Type} {F : TreeFormat E N L} {T : BinTree E N L} (M : F.Matches H R)

include M

section Sound

variable (inj : Set.InjOn H.sha S) (fresh : ∀ m ∈ S, ∀ e, H.sha m ≠ F.blank e)
  (hT : F.strings H T ⊆ S)

include inj fresh hT

theorem mem_of_verifyMembership (hread : F.Readable H R T) {proof : CommitmentProof}
    {key value : Bytes}
    (h : (verifyMembership H P proof spec (F.root H T) key value).Yields true S) :
    ∃ l ∈ T.leaves, F.key l = key ∧ F.value l = value := by
  obtain ⟨o, hvalid, rfl, rfl⟩ := I.valid_of_verifyMembership h
  exact M.mem_of_valid inj fresh hT hread hvalid

theorem shows_of_verifyMembership {proof : CommitmentProof} {key value : Bytes}
    (h : (verifyMembership H P proof spec (F.root H T) key value).Yields true S) :
    ∃ l ∈ T.leaves, F.Shows H R l key ∧ F.value l = value := by
  obtain ⟨o, hvalid, rfl, rfl⟩ := I.valid_of_verifyMembership h
  obtain ⟨ds, l, hl, -, hshows, hvalue⟩ := M.shows_of_valid inj fresh hT hvalid
  exact ⟨l, BinTree.mem_leaves_of_leafAt hl, hshows, hvalue⟩

theorem encloses_of_verifyNonMembership (empty : R.slots.EmptySound (F.nodes H) H.sha T)
    {proof : CommitmentProof} {key : Bytes}
    (h : (verifyNonMembership H P proof spec (F.root H T) key).Yields true S) :
    F.Encloses H R T key := by
  obtain ⟨left, right, hrefutes⟩ := I.refutes_of_verifyNonMembership h
  exact M.encloses_of_refutes inj fresh hT empty hrefutes

end Sound

section Complete

variable (valid : ∀ p : List Side × L, T.leafAt p.1 = some p.2 →
  (F.opening H T p).Valid R H Set.univ (F.root H T))

include valid

/-- The honest existence proof of a leaf is accepted. -/
theorem verifyMembership_honest {p : List Side × L} (hp : T.leafAt p.1 = some p.2) :
    (verifyMembership H P (.exist (honestExistence F H T p)) spec (F.root H T) (F.key p.2)
      (F.value p.2)).out = .ok true := by
  have hvalid := valid p hp
  rw [← opening_existenceProof F.leaves (F.opening H T p)] at hvalid
  refine Yields.out_eq (I.verifyMembership_exist ?_ hvalid)
  rw [M.leaves_eq]
  exact canonical_existenceProof _ _

/-- The honest non-existence proof of an absent key is accepted. -/
theorem verifyNonMembership_honest (sorted : F.Sorted H T) (nonempty : T.leaves ≠ [])
    (fits : R.slots.Fits (F.nodes H) H.sha T) {key : Bytes}
    (absent : ∀ l ∈ T.leaves, F.treeKey H l ≠ F.leaves.treeKey H key) :
    (verifyNonMembership H P (.nonexist (honestNonExistence F H T key)) spec (F.root H T)
      key).out = .ok true := by
  have hrefutes := M.refutes_nearest sorted nonempty fits valid (fun _ => Set.mem_univ key) absent
  have canonical (x : Option (List Side × L)) :
      ∀ ex ∈ x.map (honestExistence F H T), Canonical R.leaves ex := by
    rw [M.leaves_eq]
    exact Option.forall_mem_map.2 fun p _ => canonical_existenceProof _ _
  have opening (x : Option (List Side × L)) :
      (x.map (honestExistence F H T)).map ExistenceProof.opening = x.map (F.opening H T) := by
    cases x with
    | none => rfl
    | some p => exact congrArg some (opening_existenceProof _ _)
  refine Yields.out_eq (S := Set.univ)
    (I.verifyNonMembership_nonexist (canonical _) (canonical _) ?_)
  rw [honestNonExistence, opening, opening]
  exact hrefutes

end Complete

end Trees

end Implements

end Ics23.Rust
