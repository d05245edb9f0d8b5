import Ics23.Clients
import Ics23.Rust.Batch

/-!
# Batches

The two functions for batches ask for every item on its own, all of them from one proof.  What they
verify is what the store has (`batch_sound`).

An honest prover makes one batch for a list of keys, with an existence proof for each key of the
tree and a non-existence proof for each absent one.  From this batch, compressed or not, the Rust
crate verifies any selection of the keys (`batch_complete`).  An existence proof of a key is found
only if it is the one of its leaf; a non-existence proof that is found may be the one made for
another key in the same gap, and does as well.
-/

namespace Ics23

namespace Rust

open Logged

variable {H : HostFunctionsProvider} {P : Prost} {S : Set Bytes}

/-! ### One proof for many items -/

theorem allM_yields {α : Type} {items : List α} {f : α → Hashing Bool} :
    (items.allM f).Yields true S ↔ ∀ x ∈ items, (f x).Yields true S := by
  induction items with
  | nil => simp [List.allM]
  | cons x items ih =>
    rw [List.forall_mem_cons, ← ih, List.allM, yields_bind]
    constructor
    · rintro ⟨b, hb, h⟩
      cases b with
      | true => exact ⟨hb, h⟩
      | false => simp at h
    · rintro ⟨hb, h⟩
      exact ⟨true, hb, h⟩

section Decompressed

variable {proof proof' : CommitmentProof} (h : decompress proof = .ok proof') {spec : ProofSpec}
  {root : Bytes}

include h

theorem decompress_again : decompress proof' = .ok proof' := by
  cases proof <;>
    · obtain rfl := Outcome.ok.inj h
      rfl

/-- Decompression before the call changes nothing. -/
theorem verifyMembership_decompressed {key value : Bytes} :
    verifyMembership H P proof' spec root key value =
      verifyMembership H P proof spec root key value := by
  unfold verifyMembership
  rw [withDecompressed_eq h, withDecompressed_eq (decompress_again h)]

theorem verifyNonMembership_decompressed {key : Bytes} :
    verifyNonMembership H P proof' spec root key = verifyNonMembership H P proof spec root key := by
  unfold verifyNonMembership
  rw [withDecompressed_eq h, withDecompressed_eq (decompress_again h)]

end Decompressed

/-- A batch of items is verified if every item is. -/
theorem verifyBatchMembership_yields {proof : CommitmentProof} {spec : ProofSpec} {root : Bytes}
    {items : List (Bytes × Bytes)} :
    (verifyBatchMembership H P proof spec root items).Yields true S ↔
      ∀ x ∈ items, (verifyMembership H P proof spec root x.1 x.2).Yields true S := by
  obtain ⟨proof', hdec⟩ := decompress_eq_ok proof
  unfold verifyBatchMembership
  rw [withDecompressed_eq hdec, allM_yields]
  exact forall₂_congr fun ⟨key, value⟩ _ => by simp only [verifyMembership_decompressed hdec]

/-- A batch of keys is verified if every key is. -/
theorem verifyBatchNonMembership_yields {proof : CommitmentProof} {spec : ProofSpec}
    {root : Bytes} {keys : List Bytes} :
    (verifyBatchNonMembership H P proof spec root keys).Yields true S ↔
      ∀ key ∈ keys, (verifyNonMembership H P proof spec root key).Yields true S := by
  obtain ⟨proof', hdec⟩ := decompress_eq_ok proof
  unfold verifyBatchNonMembership
  rw [withDecompressed_eq hdec, allM_yields]
  exact forall₂_congr fun key _ => by rw [verifyNonMembership_decompressed hdec]

/-! ### Honest entries -/

section Honest

variable {E N L : Type} (F : TreeFormat E N L) (H : HostFunctionsProvider) (T : BinTree E N L)

/-- The entry for a key: its leaf, or its nearest leaves. -/
def honestEntry (key : Bytes) : BatchEntry :=
  match T.positions.find? fun p => F.key p.2 = key with
  | some p => .exist (honestExistence F H T p)
  | none => .nonexist (honestNonExistence F H T key)

/-- No key of the tree stands where the given one would. -/
def Absent (key : Bytes) : Prop := ∀ l ∈ T.leaves, F.treeKey H l ≠ F.leaves.treeKey H key

variable {F H T}

theorem honestEntry_of_mem {l : L} (hl : l ∈ T.leaves) :
    ∃ p : List Side × L, T.leafAt p.1 = some p.2 ∧ F.key p.2 = F.key l ∧
      honestEntry F H T (F.key l) = .exist (honestExistence F H T p) := by
  unfold honestEntry
  cases hfind : T.positions.find? fun p => F.key p.2 = F.key l with
  | some p =>
    exact ⟨p, BinTree.mem_positions.1 (List.mem_of_find?_eq_some hfind), by
      simpa using List.find?_some hfind, rfl⟩
  | none =>
    obtain ⟨ds, hds⟩ := BinTree.mem_leaves.1 hl
    have hmem : (ds, l) ∈ T.positions := BinTree.mem_positions.2 hds
    simpa using List.find?_eq_none.1 hfind _ hmem

theorem honestEntry_of_absent {key : Bytes} (absent : ∀ l ∈ T.leaves, F.key l ≠ key) :
    honestEntry F H T key = .nonexist (honestNonExistence F H T key) := by
  unfold honestEntry
  have hfind : (T.positions.find? fun p => F.key p.2 = key) = none := by
    rw [List.find?_eq_none]
    rintro ⟨ds, l⟩ hp
    simpa using absent l (BinTree.mem_leaves_of_leafAt (BinTree.mem_positions.1 hp))
  rw [hfind]

end Honest

/-! ### Honest batches -/

theorem existFor_exist {ex : ExistenceProof} {key : Bytes} :
    (BatchEntry.exist ex).existFor key = if ex.key = key then some ex else none := rfl

theorem existFor_nonexist {non : NonExistenceProof} {key : Bytes} :
    (BatchEntry.nonexist non).existFor key = none := rfl

theorem nonexistFor_exist {spec : ProofSpec} {ex : ExistenceProof} {key : Bytes} :
    (BatchEntry.exist ex).nonexistFor H spec key = none := rfl

theorem nonexistFor_nonexist {spec : ProofSpec} {non : NonExistenceProof} {key : Bytes} :
    (BatchEntry.nonexist non).nonexistFor H spec key =
      if non.SidesEnclose H spec key then some non else none := rfl

namespace Implements

variable {spec : ProofSpec} {inner : InnerSpec} {R : Rules} (I : Implements P spec inner R)
  {E N L : Type} {F : TreeFormat E N L} {T : BinTree E N L} (M : F.Matches H R)
  (valid : ∀ p : List Side × L, T.leafAt p.1 = some p.2 →
    (F.opening H T p).Valid R H Set.univ (F.root H T))
  (sorted : F.Sorted H T)

include I M valid

theorem verifyExistence_honest {p : List Side × L} (hp : T.leafAt p.1 = some p.2) :
    (verifyExistence H P (honestExistence F H T p) spec (F.root H T) (F.key p.2)
      (F.value p.2)).Yields () Set.univ := by
  have hvalid := valid p hp
  rw [← opening_existenceProof F.leaves (F.opening H T p)] at hvalid
  refine I.verifyExistence_yields.2 ⟨?_, rfl, rfl, hvalid⟩
  rw [M.leaves_eq]
  exact canonical_existenceProof _ _

include sorted

/-- The honest entry of a key of the tree, or the first of several, is an existence proof of its
leaf. -/
theorem verifyMembership_honestEntries {keys : List Bytes} {l : L} (hl : l ∈ T.leaves)
    (asked : F.key l ∈ keys) :
    (verifyMembership H P (.batch ⟨keys.map (honestEntry F H T)⟩) spec (F.root H T) (F.key l)
      (F.value l)).out = .ok true := by
  rw [verifyMembership_batch]
  cases hfind : (keys.map (honestEntry F H T)).findSome? (·.existFor (F.key l)) with
  | none =>
    obtain ⟨p, -, hkey, hentry⟩ := honestEntry_of_mem (H := H) hl
    have hnone := List.findSome?_eq_none_iff.1 hfind _ (List.mem_map_of_mem asked)
    have hkey' : (honestExistence F H T p).key = F.key l := hkey
    rw [hentry, existFor_exist, if_pos hkey'] at hnone
    contradiction
  | some ex =>
    refine ⟨ex, rfl, ?_⟩
    -- the entry that is found is the honest one of some key, which can only be this one
    obtain ⟨entry, hentry, hex⟩ := List.exists_of_findSome?_eq_some hfind
    obtain ⟨key, -, rfl⟩ := List.mem_map.1 hentry
    by_cases hmem : ∃ m ∈ T.leaves, F.key m = key
    · obtain ⟨m, hm, rfl⟩ := hmem
      obtain ⟨p, hp, -, hhonest⟩ := honestEntry_of_mem (H := H) hm
      rw [hhonest, existFor_exist, Option.ite_none_right_eq_some, Option.some.injEq] at hex
      obtain ⟨hkey, rfl⟩ := hex
      have hkey' : F.key p.2 = F.key l := hkey
      have hlookup := TreeFormat.lookup_eq_some sorted (BinTree.mem_leaves_of_leafAt hp) hkey'
      rw [TreeFormat.lookup_eq_some sorted hl rfl, Option.some.injEq] at hlookup
      rw [hlookup, ← hkey']
      exact (I.verifyExistence_honest M valid hp).out_eq
    · have hout : ∀ m ∈ T.leaves, F.key m ≠ key := by simpa using hmem
      rw [honestEntry_of_absent hout, existFor_nonexist] at hex
      contradiction

/-- The first honest entry whose sides enclose an absent key shows that it is absent, for whatever
key the entry was made. -/
theorem verifyNonMembership_honestEntries (nonempty : T.leaves ≠ [])
    (fits : R.slots.Fits (F.nodes H) H.sha T) {keys : List Bytes}
    (answerable : ∀ key ∈ keys, (∀ l ∈ T.leaves, F.key l ≠ key) → Absent F H T key) {key : Bytes}
    (absent : Absent F H T key) (asked : key ∈ keys) :
    (verifyNonMembership H P (.batch ⟨keys.map (honestEntry F H T)⟩) spec (F.root H T) key).out =
      .ok true := by
  have opening (x : Option (List Side × L)) :
      (x.map (honestExistence F H T)).map ExistenceProof.opening = x.map (F.opening H T) := by
    cases x with
    | none => rfl
    | some p => exact congrArg some (opening_existenceProof _ _)
  have canonical (x : Option (List Side × L)) :
      ∀ ex ∈ x.map (honestExistence F H T), Canonical R.leaves ex := by
    rw [M.leaves_eq]
    exact Option.forall_mem_map.2 fun p _ => canonical_existenceProof _ _
  -- the entry of an absent key refutes it
  have refutes {k : Bytes} (hk : Absent F H T k) :
      Refutes R H Set.univ (F.root H T) k
        ((honestNonExistence F H T k).left.map ExistenceProof.opening)
        ((honestNonExistence F H T k).right.map ExistenceProof.opening) := by
    rw [honestNonExistence, opening, opening]
    exact M.refutes_nearest sorted nonempty fits valid (fun _ => Set.mem_univ k) hk
  have hencloses {k : Bytes} {non : NonExistenceProof} :
      non.SidesEnclose H spec k ↔ (inRange H spec non k).Yields true Set.univ := by
    rw [← inRange_iff, yields_univ_iff]
  rw [verifyNonMembership_batch]
  cases hfind : (keys.map (honestEntry F H T)).findSome? (·.nonexistFor H spec key) with
  | none =>
    have hentry : honestEntry F H T key = .nonexist (honestNonExistence F H T key) := by
      refine honestEntry_of_absent fun l hl hkey => absent l hl ?_
      rw [TreeFormat.treeKey, hkey]
    have hnone := List.findSome?_eq_none_iff.1 hfind _ (List.mem_map_of_mem asked)
    have h := refutes absent
    have hrange : (honestNonExistence F H T key).SidesEnclose H spec key := by
      rw [hencloses, I.inRange_yields_true]
      exact ⟨fun ex hex => ⟨Option.forall_mem_map.1 h.left_lt ex hex,
          fun _ => ⟨Set.mem_univ _, Set.mem_univ _⟩⟩,
        fun ex hex => ⟨Option.forall_mem_map.1 h.lt_right ex hex,
          fun _ => ⟨Set.mem_univ _, Set.mem_univ _⟩⟩⟩
    rw [hentry, nonexistFor_nonexist, if_pos hrange] at hnone
    contradiction
  | some non =>
    refine ⟨non, rfl, ?_⟩
    obtain ⟨entry, hentry, hnon⟩ := List.exists_of_findSome?_eq_some hfind
    obtain ⟨key', hkey', rfl⟩ := List.mem_map.1 hentry
    by_cases hmem : ∃ m ∈ T.leaves, F.key m = key'
    · obtain ⟨m, hm, rfl⟩ := hmem
      obtain ⟨p, -, -, hhonest⟩ := honestEntry_of_mem (H := H) hm
      rw [hhonest, nonexistFor_exist] at hnon
      contradiction
    · have hout : ∀ l ∈ T.leaves, F.key l ≠ key' := by simpa using hmem
      rw [honestEntry_of_absent hout, nonexistFor_nonexist, Option.ite_none_right_eq_some,
        Option.some.injEq] at hnon
      obtain ⟨hrange, rfl⟩ := hnon
      obtain ⟨hleft, hright⟩ := I.inRange_yields_true.1 (hencloses.1 hrange)
      -- its sides are valid and leave no gap; that they enclose the key was tested
      have h := refutes (answerable key' hkey' hout)
      refine Yields.out_eq (S := Set.univ)
        (I.verifyNonExistence_yields.2 ⟨canonical _, canonical _, ?_⟩)
      exact ⟨h.left_valid, Option.forall_mem_map.2 fun ex hex => (hleft ex hex).1, h.right_valid,
        Option.forall_mem_map.2 fun ex hex => (hright ex hex).1, fun _ => Set.mem_univ key, h.gap⟩

/-- All selections of the keys are verified, also from a compressed batch. -/
theorem verifyBatch_honestEntries (nonempty : T.leaves ≠ [])
    (fits : R.slots.Fits (F.nodes H) H.sha T) {keys : List Bytes}
    (answerable : ∀ key ∈ keys, F.lookup T key = none → Absent F H T key)
    {proof : CommitmentProof}
    (hdec : decompress proof = .ok (.batch ⟨keys.map (honestEntry F H T)⟩)) :
    (∀ items : List (Bytes × Bytes),
      (∀ x ∈ items, x.1 ∈ keys ∧ F.lookup T x.1 = some x.2) →
      (verifyBatchMembership H P proof spec (F.root H T) items).out = .ok true) ∧
    (∀ absent : List Bytes, (∀ key ∈ absent, key ∈ keys ∧ Absent F H T key) →
      (verifyBatchNonMembership H P proof spec (F.root H T) absent).out = .ok true) := by
  constructor
  · intro items hitems
    rw [← yields_univ_iff, verifyBatchMembership_yields]
    intro x hx
    obtain ⟨asked, hlookup⟩ := hitems x hx
    obtain ⟨l, hl, hkey, hvalue⟩ := TreeFormat.mem_of_lookup_eq_some hlookup
    rw [← hkey] at asked ⊢
    rw [yields_univ_iff, ← verifyMembership_decompressed hdec, ← hvalue]
    exact I.verifyMembership_honestEntries M valid sorted hl asked
  · intro absent habsent
    rw [← yields_univ_iff, verifyBatchNonMembership_yields]
    intro key hkey
    obtain ⟨asked, hout⟩ := habsent key hkey
    rw [yields_univ_iff, ← verifyNonMembership_decompressed hdec]
    exact I.verifyNonMembership_honestEntries M valid sorted nonempty fits
      (fun k hk hnot => answerable k hk (TreeFormat.lookup_eq_none hnot)) hout asked

end Implements

end Rust

/-! ### Batches and stores -/

namespace Store

variable (H : HostFunctionsProvider)

/-- The tree is one that the kind of store builds. -/
def Honest : Store → Prop
  | iavl T => IavlShape T ∧ IavlLeaves T ∧ T.Sorted IavlLeaf.key
  | tendermint T => PlainLeaves T ∧ T.Sorted KeyValue.key
  | smt T => T.leaves ≠ [] ∧ PlainLeaves T ∧ SmtShape T ∧ T.Sorted fun l => H.sha l.key

/-- The batch for a list of keys. -/
def prove (keys : List Bytes) : Store → Rust.CommitmentProof
  | iavl T => .batch ⟨keys.map (Rust.honestEntry iavlFormat H T)⟩
  | tendermint T => .batch ⟨keys.map (Rust.honestEntry tendermintFormat H T)⟩
  | smt T => .batch ⟨keys.map (Rust.honestEntry smtFormat H T)⟩

/-- The key has no leaf.  In a sparse tree no leaf has the hash of the key either. -/
def Absent (key : Bytes) : Store → Prop
  | iavl T => Rust.Absent iavlFormat H T key
  | tendermint T => Rust.Absent tendermintFormat H T key
  | smt T => Rust.Absent smtFormat H T key

end Store

variable (H : HostFunctionsProvider) (P : Rust.Prost)

/-- What the Rust crate verifies of a batch of items or keys, from whatever proof, holds of the map,
unless the hash function is broken on the strings that were hashed. -/
theorem batch_sound (store : Store) (ordered : store.Ordered H) (proof : Rust.CommitmentProof) :
    (∀ items : List (Bytes × Bytes),
      let call := Rust.verifyBatchMembership H P proof store.spec.rustSpec (store.root H) items
      call.out = .ok true → (∀ x ∈ items, store.lookup x.1 = some x.2) ∨
        store.Broken H (store.strings H ∪ {q | q ∈ call.log})) ∧
    (∀ keys : List Bytes,
      let call := Rust.verifyBatchNonMembership H P proof store.spec.rustSpec (store.root H) keys
      call.out = .ok true → (∀ key ∈ keys, store.lookup key = none) ∨
        store.Broken H (store.strings H ∪ {q | q ∈ call.log})) := by
  constructor
  · intro items call h
    refine or_iff_not_imp_right.2 fun unbroken x hx => ?_
    have hyields : call.Yields true (store.strings H ∪ {q | q ∈ call.log}) :=
      ⟨h, fun _ hq => .inr hq⟩
    obtain ⟨accepted, hashed⟩ := Rust.verifyBatchMembership_yields.1 hyields x hx
    exact Store.lookup_of_accepted ordered Set.subset_union_left unbroken
      (a := ⟨x.1, some x.2, .rust proof⟩) accepted hashed
  · intro keys call h
    refine or_iff_not_imp_right.2 fun unbroken key hkey => ?_
    have hyields : call.Yields true (store.strings H ∪ {q | q ∈ call.log}) :=
      ⟨h, fun _ hq => .inr hq⟩
    obtain ⟨accepted, hashed⟩ := Rust.verifyBatchNonMembership_yields.1 hyields key hkey
    exact Store.lookup_of_accepted ordered Set.subset_union_left unbroken
      (a := ⟨key, none, .rust proof⟩) accepted hashed

/-- Of three keys of a batch, the first one is that of a leaf. -/
theorem iavlPair_answerable : ∀ key ∈ [[1], [2], [0]],
    (Store.iavl iavlPair).lookup key = none → (Store.iavl iavlPair).Absent .sha256Only key := by
  have absent {key : Bytes} (h : ∀ l ∈ iavlPair.leaves, l.key ≠ key) :
      (Store.iavl iavlPair).Absent .sha256Only key := h
  simp only [List.mem_cons, List.not_mem_nil, or_false, forall_eq_or_imp, forall_eq]
  exact ⟨fun h => absurd h (by decide), fun _ => absent (by decide), fun _ => absent (by decide)⟩

theorem iavlPair_batch_sound :
    let store := Store.iavl iavlPair
    let call := Rust.verifyBatchMembership .sha256Only .leb128
      (store.prove .sha256Only [[1], [2], [0]]) Rust.iavlSpec (store.root .sha256Only) [([1], [10])]
    (∀ x ∈ [([1], [10])], store.lookup x.1 = some x.2) ∨
      store.Broken .sha256Only (store.strings .sha256Only ∪ {q | q ∈ call.log}) := by
  intro store call
  have M : iavlFormat.Matches .sha256Only iavlRules := iavlFormat_matches _
  have hdec : Rust.decompress (store.prove .sha256Only [[1], [2], [0]]) =
      .ok (store.prove .sha256Only [[1], [2], [0]]) := rfl
  have accepted := (Rust.iavlSpec_implements .leb128).verifyBatch_honestEntries M
    Rust.iavlPair_valid iavlPair_sorted iavlPair.leaves_ne_nil (iavl_fits iavlPair_shape)
    iavlPair_answerable hdec
  refine (batch_sound .sha256Only .leb128 store iavlPair_sorted _).1 _ (accepted.1 _ ?_)
  simp only [List.mem_singleton, forall_eq]
  exact ⟨by decide, rfl⟩

/-- From an honest batch, compressed or not, the Rust crate verifies the values of any of its keys
that the store has, and the absence of any others. -/
theorem batch_complete (store : Store) (honest : store.Honest H) (keys : List Bytes)
    (answerable : ∀ key ∈ keys, store.lookup key = none → store.Absent H key)
    (proof : Rust.CommitmentProof) (hdec : Rust.decompress proof = .ok (store.prove H keys)) :
    (∀ items : List (Bytes × Bytes),
      (∀ x ∈ items, x.1 ∈ keys ∧ store.lookup x.1 = some x.2) →
      (Rust.verifyBatchMembership H P proof store.spec.rustSpec (store.root H) items).out =
        .ok true) ∧
    (∀ absent : List Bytes, (∀ key ∈ absent, key ∈ keys ∧ store.Absent H key) →
      (Rust.verifyBatchNonMembership H P proof store.spec.rustSpec (store.root H) absent).out =
        .ok true) := by
  cases store with
  | iavl T =>
    obtain ⟨shape, leaves, sorted⟩ := honest
    exact (Rust.iavlSpec_implements P).verifyBatch_honestEntries (iavlFormat_matches H)
      (fun _ hp => iavl_valid_opening shape leaves hp) sorted T.leaves_ne_nil (iavl_fits shape)
      answerable hdec
  | tendermint T =>
    obtain ⟨leaves, sorted⟩ := honest
    exact (Rust.tendermintSpec_implements P).verifyBatch_honestEntries (tendermintFormat_matches H)
      (fun _ hp => tendermint_valid_opening H leaves hp) sorted T.leaves_ne_nil (tendermint_fits T)
      answerable hdec
  | smt T =>
    obtain ⟨nonempty, leaves, shape, sorted⟩ := honest
    exact (Rust.smtSpec_implements P).verifyBatch_honestEntries (smtFormat_matches H)
      (fun _ hp => smt_valid_opening leaves hp) sorted nonempty (smt_fits shape) answerable hdec

theorem iavlPair_batch_complete :
    let store := Store.iavl iavlPair
    let proof := store.prove .sha256Only [[1], [2], [0]]
    (Rust.verifyBatchMembership .sha256Only .leb128 proof Rust.iavlSpec (store.root .sha256Only)
      [([1], [10])]).out = .ok true ∧
    (Rust.verifyBatchNonMembership .sha256Only .leb128 proof Rust.iavlSpec (store.root .sha256Only)
      [[0], [2]]).out = .ok true := by
  intro store proof
  have absent {key : Bytes} (h : ∀ l ∈ iavlPair.leaves, l.key ≠ key) :
      store.Absent .sha256Only key := h
  have complete := batch_complete .sha256Only .leb128 store
    ⟨iavlPair_shape, iavlPair_leaves, iavlPair_sorted⟩ [[1], [2], [0]] iavlPair_answerable proof rfl
  refine ⟨complete.1 _ ?_, complete.2 _ ?_⟩
  · simp only [List.mem_singleton, forall_eq]
    exact ⟨by decide, rfl⟩
  · simp only [List.mem_cons, List.not_mem_nil, or_false, forall_eq_or_imp, forall_eq]
    exact ⟨⟨by decide, absent (by decide)⟩, by decide, absent (by decide)⟩

end Ics23
