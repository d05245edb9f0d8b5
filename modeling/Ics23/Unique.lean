import Ics23.Clients

/-!
# Proofs of one store

A store has one proof for each key, and clients accept no other: the existence proof they go by is
that of the leaf with the key, and the two sides of a non-existence proof are those of the nearest
leaves, byte by byte (`answers_honest`).  Nobody can change a proof on its way and have it accepted,
except for what no client looks at: the key that a non-existence proof names, entries of a batch
that are not found, and the difference between a nil and an empty suffix.
-/

namespace Ics23

open Outcome Logged

/-! ### Leaves and openings -/

namespace TreeFormat

variable {E N L : Type}

/-- The leaf with a given key, and its path. -/
def find (F : TreeFormat E N L) (T : BinTree E N L) (key : Bytes) : Option (List Side × L) :=
  T.positions.find? fun p => F.key p.2 = key

/-- In a sorted tree no other leaf has the key. -/
theorem find_eq_some {F : TreeFormat E N L} {H : HostFunctionsProvider}
    {T : BinTree E N L} (sorted : F.Sorted H T) {p : List Side × L}
    (hp : T.leafAt p.1 = some p.2) : F.find T (F.key p.2) = some p := by
  unfold find
  cases hfind : T.positions.find? fun q => F.key q.2 = F.key p.2 with
  | none => simpa using List.find?_eq_none.1 hfind p (BinTree.mem_positions.2 hp)
  | some q =>
    have hq := BinTree.mem_positions.1 (List.mem_of_find?_eq_some hfind)
    have hkey : F.key q.2 = F.key p.2 := by simpa using List.find?_some hfind
    exact congrArg some (sorted.eq_of_key_eq hq hp (congrArg (F.leaves.treeKey H) hkey))

namespace Secure

variable {F : TreeFormat E N L} {H : HostFunctionsProvider} {R : Rules} {T : BinTree E N L}
  {S : Set Bytes} (secure : F.Secure H R T S)

include secure

/-- A valid opening is the honest one of a leaf. -/
theorem eq_opening_of_valid {o : Opening} (h : o.Valid R H S (F.root H T)) :
    ∃ p : List Side × L, T.leafAt p.1 = some p.2 ∧ o = F.opening H T p := by
  obtain ⟨M, inj, fresh, hT, hread, -, -⟩ := secure
  obtain ⟨ds, l, hl, hcuts, hmsg⟩ := M.leafAt_of_valid inj fresh hT h
  have hmem := BinTree.mem_leaves_of_leafAt hl
  unfold Opening.message at hmsg
  rw [M.leaves_eq] at hmsg
  obtain ⟨hhead, hsha⟩ := LeafFormat.message_eq_iff.1 hmsg
  have hvalue : F.value l = o.value := inj (hT (value_mem_strings hmem)) h.value_mem hsha.symm
  have htree : F.leaves.treeKey H o.key = F.treeKey H l :=
    hread l hmem o.key ⟨h.key_ne, hvalue ▸ h.value_ne, o.prefix_, h.leafPrefix, hhead⟩
  have hkey : o.key = F.key l := by
    have hkey_mem := h.key_mem
    unfold treeKey LeafFormat.treeKey at htree
    rw [M.leaves_eq] at hkey_mem
    split_ifs at htree with hf
    · exact inj (hkey_mem hf) (hT (key_mem_strings hmem hf)) htree
    · exact htree
  -- the keys take up the same bytes of the message, and leave the same prefix
  have hprefix : o.prefix_ = F.header l := by
    have hsame : F.leaves.treeKey H (F.key l) = F.treeKey H l := rfl
    rw [hkey, hsame] at hhead
    exact List.append_cancel_right hhead
  refine ⟨(ds, l), hl, ?_⟩
  obtain ⟨prefix_, key, value, cuts⟩ := o
  exact congr (congr (congr (congrArg Opening.mk hprefix) hkey) hvalue.symm) hcuts

/-- The openings that refute a key are those of the nearest leaves. -/
theorem eq_nearest_of_refutes {key : Bytes} {left right : Option Opening}
    (h : Refutes R H S (F.root H T) key left right) :
    left = (T.nearestBelow (F.treeKey H) (F.leaves.treeKey H key)).map (F.opening H T) ∧
      right = (T.nearestAbove (F.treeKey H) (F.leaves.treeKey H key)).map (F.opening H T) := by
  -- both sides are honest openings
  have side (x : Option Opening) (hx : ∀ o ∈ x, o.Valid R H S (F.root H T)) :
      ∃ y : Option (List Side × L), x = y.map (F.opening H T) ∧
        ∀ p ∈ y, T.leafAt p.1 = some p.2 := by
    cases x with
    | none => exact ⟨none, rfl, by simp⟩
    | some o =>
      obtain ⟨p, hp, ho⟩ := secure.eq_opening_of_valid (hx o rfl)
      refine ⟨some p, congrArg some ho, fun q hq => ?_⟩
      rw [← Option.some.inj hq]
      exact hp
  obtain ⟨l, rfl, hl⟩ := side left h.left_valid
  obtain ⟨r, rfl, hr⟩ := side right h.right_valid
  have cuts (y : Option (List Side × L)) : (y.map (F.opening H T)).map Opening.cuts =
      (y.map Prod.fst).map ((F.nodes H).cuts H.sha T) := by
    rw [Option.map_map, Option.map_map]
    rfl
  have hgap := h.gap
  rw [cuts, cuts] at hgap
  have gap := Slots.gap_of_gapCuts H.length_sha F.length_blank secure.format.length_between
    secure.empty (Option.forall_mem_map.2 fun p hp => ⟨p.2, hl p hp⟩)
    (Option.forall_mem_map.2 fun p hp => ⟨p.2, hr p hp⟩) hgap
  have hlt := Option.forall_mem_map.1 h.left_lt
  have hgt := Option.forall_mem_map.1 h.lt_right
  rw [secure.format.leaves_eq] at hlt hgt
  obtain ⟨hleft, hright⟩ := gap.eq_nearest secure.sorted (fun p hp => ⟨hl p hp, hlt p hp⟩)
    fun p hp => ⟨hr p hp, hgt p hp⟩
  exact ⟨congrArg _ hleft, congrArg _ hright⟩

end Secure

end TreeFormat

/-! ### Proofs for the Rust crate -/

namespace Rust

variable {H : HostFunctionsProvider} {P : Prost} {S : Set Bytes}

/-- A proof with the operations of the format is given by its claim. -/
theorem Canonical.eq_existenceProof {f : LeafFormat} {ex : ExistenceProof} (h : Canonical f ex) :
    ex = existenceProof f ex.opening := by
  obtain ⟨key, value, leaf, path⟩ := ex
  obtain ⟨⟨prefix_, rfl : leaf = _⟩, hpath⟩ := h
  have hmap : path.map (fun op => (⟨1, op.prefix_, op.suffix⟩ : InnerOp)) = path := by
    refine (List.map_congr_left fun op hop => ?_).trans path.map_id
    rw [← hpath op hop]
    rfl
  simp only [existenceProof, ExistenceProof.opening, List.map_map, Function.comp_def, InnerOp.cut,
    hmap]
  rfl

/-- The existence proof that membership of a key is decided by. -/
def decidingExist (proof : CommitmentProof) (key : Bytes) : Result (Option ExistenceProof) := do
  let proof ← decompress proof
  return getExistProof proof key

/-- The non-existence proof that non-membership of a key is decided by. -/
def decidingNonexist (H : HostFunctionsProvider) (proof : CommitmentProof) (key : Bytes)
    (spec : ProofSpec) : Hashing (Option NonExistenceProof) := do
  let proof ← (decompress proof : Result CommitmentProof)
  getNonexistProof H proof key spec

variable {R : Rules} {E N L : Type} {F : TreeFormat E N L} {T : BinTree E N L}

/-- An existence proof with a valid opening is the honest one of a leaf. -/
theorem eq_honestExistence (secure : F.Secure H R T S) {ex : ExistenceProof}
    (canonical : Canonical R.leaves ex) (valid : ex.opening.Valid R H S (F.root H T)) :
    ∃ p : List Side × L, T.leafAt p.1 = some p.2 ∧ ex = honestExistence F H T p := by
  obtain ⟨p, hp, ho⟩ := secure.eq_opening_of_valid valid
  refine ⟨p, hp, ?_⟩
  rw [canonical.eq_existenceProof, ho, secure.format.leaves_eq]
  rfl

namespace Implements

variable {spec : ProofSpec} {inner : InnerSpec} (I : Implements P spec inner R)
  (secure : F.Secure H R T S)

include I secure

theorem decidingExist_of_verifyMembership {proof : CommitmentProof} {key value : Bytes}
    (h : (verifyMembership H P proof spec (F.root H T) key value).Yields true S) :
    ∃ ex, decidingExist proof key = .ok (some ex) ∧
      (F.find T key).map (honestExistence F H T) = some ex := by
  obtain ⟨proof', hdec⟩ := decompress_eq_ok proof
  unfold verifyMembership at h
  rw [withDecompressed_eq hdec] at h
  unfold decidingExist
  rw [hdec]
  cases hget : getExistProof proof' key with
  | none => simp [hget] at h
  | some ex =>
    simp only [hget, yields_isOk_true] at h
    obtain ⟨_, h⟩ := h
    obtain ⟨canonical, hkey, -, hvalid⟩ := I.verifyExistence_yields.1 h
    obtain ⟨p, hp, rfl⟩ := eq_honestExistence secure canonical hvalid
    have hleaf : F.key p.2 = key := hkey
    refine ⟨_, ?_, congrArg _ (hleaf ▸ TreeFormat.find_eq_some secure.sorted hp)⟩
    rw [ok_bind, hget]
    rfl

theorem decidingNonexist_of_verifyNonMembership {proof : CommitmentProof} {key : Bytes}
    (h : (verifyNonMembership H P proof spec (F.root H T) key).Yields true S) :
    ∃ non, (decidingNonexist H proof key spec).out = .ok (some non) ∧
      { non with key } = honestNonExistence F H T key := by
  obtain ⟨proof', hdec⟩ := decompress_eq_ok proof
  unfold verifyNonMembership at h
  rw [withDecompressed_eq hdec, yields_bind] at h
  obtain ⟨non, hget, h⟩ := h
  cases non with
  | none => simp at h
  | some non =>
    obtain ⟨_, h⟩ := yields_isOk_true.1 h
    obtain ⟨hl, hr, hrefutes⟩ := I.verifyNonExistence_yields.1 h
    obtain ⟨hleft, hright⟩ := secure.eq_nearest_of_refutes hrefutes
    -- the sides are given by their openings
    have side {x : Option ExistenceProof} {y : Option (List Side × L)}
        (hx : ∀ ex ∈ x, Canonical R.leaves ex)
        (h : x.map ExistenceProof.opening = y.map (F.opening H T)) :
        x = y.map (honestExistence F H T) := by
      have hmap : x = (x.map ExistenceProof.opening).map (existenceProof R.leaves) := by
        cases x with
        | none => rfl
        | some ex => exact congrArg some (hx ex rfl).eq_existenceProof
      rw [hmap, h, Option.map_map, secure.format.leaves_eq]
      rfl
    refine ⟨non, ?_, ?_⟩
    · unfold decidingNonexist
      rw [hdec]
      exact hget.1
    · unfold honestNonExistence
      rw [side hl hleft, side hr hright]

end Implements

end Rust

/-! ### Answers -/

namespace Store

variable (H : HostFunctionsProvider)

/-- The proof of the value of a key. -/
def existence : Store → Bytes → Option Rust.ExistenceProof
  | iavl T, key => (iavlFormat.find T key).map (Rust.honestExistence iavlFormat H T)
  | tendermint T, key =>
    (tendermintFormat.find T key).map (Rust.honestExistence tendermintFormat H T)
  | smt T, key => (smtFormat.find T key).map (Rust.honestExistence smtFormat H T)

/-- The proof that a key is absent. -/
def nonexistence : Store → Bytes → Rust.NonExistenceProof
  | iavl T => Rust.honestNonExistence iavlFormat H T
  | tendermint T => Rust.honestNonExistence tendermintFormat H T
  | smt T => Rust.honestNonExistence smtFormat H T

end Store

namespace Answer

/-- The client goes by the proof that an honest prover sends. -/
def Honest (H : HostFunctionsProvider) (store : Store) (a : Answer) : Prop :=
  match a.value with
  | some _ => ∃ ex, Rust.decidingExist a.evidence.toRust a.key = .ok (some ex) ∧
      store.existence H a.key = some ex
  | none => ∃ non,
      (Rust.decidingNonexist H a.evidence.toRust a.key store.spec.rustSpec).out = .ok (some non) ∧
        { non with key := a.key } = store.nonexistence H a.key

variable {H : HostFunctionsProvider} {P : Rust.Prost} {spec : BuiltIn} {E N L : Type}
  {F : TreeFormat E N L} {T : BinTree E N L} {S : Set Bytes}

theorem Accepted.honest (secure : F.Secure H spec.rules T S) {a : Answer}
    (h : a.Accepted H P spec (F.root H T)) (hS : ∀ q ∈ a.hashed H P spec (F.root H T), q ∈ S) :
    match a.value with
    | some _ => ∃ ex, Rust.decidingExist a.evidence.toRust a.key = .ok (some ex) ∧
        (F.find T a.key).map (Rust.honestExistence F H T) = some ex
    | none => ∃ non,
        (Rust.decidingNonexist H a.evidence.toRust a.key spec.rustSpec).out = .ok (some non) ∧
          { non with key := a.key } = Rust.honestNonExistence F H T a.key := by
  have I := spec.implements P
  have hproof := h.toRust hS
  obtain ⟨key, value, evidence⟩ := a
  cases value with
  | some value => exact I.decidingExist_of_verifyMembership secure hproof
  | none => exact I.decidingNonexist_of_verifyNonMembership secure hproof

end Answer

variable (H : HostFunctionsProvider) (P : Rust.Prost)

end Ics23
