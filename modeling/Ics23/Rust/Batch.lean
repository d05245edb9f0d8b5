import Ics23.Rust.Membership

/-!
# Batches

A batch is searched for the first entry that is for the query: an existence proof of the key, or a
non-existence proof whose sides enclose it (`inRange_iff`).  Only this entry is verified
(`batch_iff_first`), so that an entry which does not verify hides all later ones for the same query.
-/

namespace Ics23.Rust

open Logged

variable (H : HostFunctionsProvider) (P : Prost)

/-- The proof in an entry that `get_exist_proof` stops at. -/
def BatchEntry.existFor (key : Bytes) : BatchEntry → Option ExistenceProof
  | .exist ex => if ex.key = key then some ex else Option.none
  | _ => Option.none

/-- The key `a` is before `b` when they are compared as the spec says. -/
def KeyBefore (spec : ProofSpec) (a b : Bytes) : Prop :=
  ∃ x y, (keyForComparison H spec a).out = .ok x ∧ (keyForComparison H spec b).out = .ok y ∧ x < y

/-- The key is after that of the left side and before that of the right side, if they are there. -/
def NonExistenceProof.SidesEnclose (spec : ProofSpec) (non : NonExistenceProof) (key : Bytes) :
    Prop :=
  (∀ left ∈ non.left, KeyBefore H spec left.key key) ∧
    ∀ right ∈ non.right, KeyBefore H spec key right.key

theorem keyBefore_iff {spec : ProofSpec} {a b : Bytes} :
    (keyBefore H spec a b).out = .ok true ↔ KeyBefore H spec a b := by
  simp only [keyBefore, KeyBefore, ← yields_univ_iff, yields_bind, yields_pure, exists_and_left,
    decide_eq_true_eq]

/-- What the order test of `get_nonexist_proof` decides. -/
theorem inRange_iff {spec : ProofSpec} {non : NonExistenceProof} {key : Bytes} :
    (inRange H spec non key).out = .ok true ↔ non.SidesEnclose H spec key := by
  simp only [NonExistenceProof.SidesEnclose, ← keyBefore_iff, ← yields_univ_iff,
    inRange_yields_true]

instance (spec : ProofSpec) (non : NonExistenceProof) (key : Bytes) :
    Decidable (non.SidesEnclose H spec key) :=
  decidable_of_iff _ (inRange_iff H)

/-- The proof in an entry that `get_nonexist_proof` stops at. -/
def BatchEntry.nonexistFor (spec : ProofSpec) (key : Bytes) : BatchEntry → Option NonExistenceProof
  | .nonexist non => if non.SidesEnclose H spec key then some non else Option.none
  | _ => Option.none

/-! ## The first match -/

theorem findExist_eq (key : Bytes) (entries : List BatchEntry) :
    findExist key entries = entries.findSome? (·.existFor key) := by
  induction entries with
  | nil => rfl
  | cons entry entries ih =>
    cases entry with
    | exist ex =>
      rw [List.findSome?_cons, findExist, BatchEntry.existFor, ih]
      split_ifs <;> rfl
    | _ => exact ih

theorem findNonexist_yields {spec : ProofSpec} {key : Bytes} {entries : List BatchEntry}
    {non : Option NonExistenceProof} :
    (findNonexist H spec key entries).Yields non Set.univ ↔
      entries.findSome? (·.nonexistFor H spec key) = non := by
  induction entries with
  | nil => simp [findNonexist]
  | cons entry entries ih =>
    cases entry with
    | nonexist n =>
      obtain ⟨b, hb⟩ := inRange_returns (H := H) spec n key
      rw [findNonexist, (yields_univ_iff.2 hb).bind_iff, List.findSome?_cons,
        BatchEntry.nonexistFor]
      cases b with
      | true => simp [(inRange_iff H).1 hb]
      | false =>
        have hout : ¬ n.SidesEnclose H spec key := by rw [← inRange_iff, hb]; simp
        simpa [hout] using ih
    | _ => exact ih

theorem decompress_batch (batch : BatchProof) :
    decompress (.batch batch) = .ok (.batch batch) := rfl

/-- Membership holds if the first existence proof of the key does. -/
theorem verifyMembership_batch {batch : BatchProof} {spec : ProofSpec} {root key value : Bytes} :
    (verifyMembership H P (.batch batch) spec root key value).out = .ok true ↔
      ∃ ex, batch.entries.findSome? (·.existFor key) = some ex ∧
        (verifyExistence H P ex spec root key value).out = .ok () := by
  rw [verifyMembership, withDecompressed_eq (decompress_batch batch)]
  simp only [← yields_univ_iff, getExistProof, findExist_eq]
  cases batch.entries.findSome? (·.existFor key) with
  | none => simp
  | some ex => simp [yields_isOk_unit]

/-- Non-membership holds if the first non-existence proof that encloses the key does. -/
theorem verifyNonMembership_batch {batch : BatchProof} {spec : ProofSpec} {root key : Bytes} :
    (verifyNonMembership H P (.batch batch) spec root key).out = .ok true ↔
      ∃ non, batch.entries.findSome? (·.nonexistFor H spec key) = some non ∧
        (verifyNonExistence H P non spec root key).out = .ok () := by
  have hfind : (findNonexist H spec key batch.entries).Yields _ Set.univ :=
    (findNonexist_yields H).2 rfl
  rw [verifyNonMembership, withDecompressed_eq (decompress_batch batch)]
  simp only [← yields_univ_iff, getNonexistProof, hfind.bind_iff]
  cases batch.entries.findSome? (·.nonexistFor H spec key) with
  | none => simp
  | some non => simp [yields_isOk_unit]

/-- A batch proves what its first entry for the query proves.  Only the entries for the query and
their order matter, and entries added at the end hide nothing. -/
theorem batch_iff_first (batch : BatchProof) (spec : ProofSpec) (root key : Bytes) :
    (∀ value, (verifyMembership H P (.batch batch) spec root key value).out = .ok true ↔
      ∃ ex, batch.entries.findSome? (·.existFor key) = some ex ∧
        (verifyExistence H P ex spec root key value).out = .ok ()) ∧
    ((verifyNonMembership H P (.batch batch) spec root key).out = .ok true ↔
      ∃ non, batch.entries.findSome? (·.nonexistFor H spec key) = some non ∧
        (verifyNonExistence H P non spec root key).out = .ok ()) ∧
    (∀ batch' : BatchProof,
      (batch'.entries.filterMap (·.existFor key) = batch.entries.filterMap (·.existFor key) →
        ∀ value, (verifyMembership H P (.batch batch') spec root key value).out = .ok true ↔
          (verifyMembership H P (.batch batch) spec root key value).out = .ok true) ∧
      (batch'.entries.filterMap (·.nonexistFor H spec key) =
          batch.entries.filterMap (·.nonexistFor H spec key) →
        ((verifyNonMembership H P (.batch batch') spec root key).out = .ok true ↔
          (verifyNonMembership H P (.batch batch) spec root key).out = .ok true))) ∧
    (∀ more : List BatchEntry,
      let longer : BatchProof := { entries := batch.entries ++ more }
      (∀ value, (verifyMembership H P (.batch batch) spec root key value).out = .ok true →
        (verifyMembership H P (.batch longer) spec root key value).out = .ok true) ∧
      ((verifyNonMembership H P (.batch batch) spec root key).out = .ok true →
        (verifyNonMembership H P (.batch longer) spec root key).out = .ok true)) := by
  simp only [verifyMembership_batch, verifyNonMembership_batch, ← List.head?_filterMap,
    List.filterMap_append, List.head?_append]
  refine ⟨fun _ => trivial, trivial, fun batch' => ⟨fun h _ => ?_, fun h => ?_⟩,
    fun more => ⟨?_, ?_⟩⟩
  · rw [h]
  · rw [h]
  · rintro value ⟨ex, hex, h⟩
    exact ⟨ex, by rw [hex, Option.some_or], h⟩
  · rintro ⟨non, hnon, h⟩
    exact ⟨non, by rw [hnon, Option.some_or], h⟩

/-- The valid proof of the only leaf of a tree, and one that names another value. -/
def onlyLeaf (value : Bytes) : ExistenceProof where
  key := [1]
  value := value
  leaf := some tendermintLeafSpec
  path := []

/-- The second entry verifies, but the first one is found, which names another value; and the second
entry shows that a key is absent, but the first one is found, which has no sides. -/
theorem batch_hides_entries :
    let H := HostFunctionsProvider.sha256Only
    let root := H.sha ([0, 1, 1, 32] ++ H.sha [7])
    let hidden : ExistenceProof := onlyLeaf [7]
    let empty : NonExistenceProof := { key := [2], left := none, right := none }
    let absent : NonExistenceProof := { key := [2], left := some (onlyLeaf [7]), right := none }
    ((verifyExistence H .leb128 hidden tendermintSpec root [1] [7]).out = .ok () ∧
      (verifyMembership H .leb128 (.batch ⟨[.exist (onlyLeaf [8]), .exist hidden]⟩) tendermintSpec
        root [1] [7]).out = .ok false) ∧
    ((verifyNonExistence H .leb128 absent tendermintSpec root [2]).out = .ok () ∧
      (verifyNonMembership H .leb128 (.batch ⟨[.nonexist empty, .nonexist absent]⟩) tendermintSpec
        root [2]).out = .ok false) := by
  refine ⟨⟨?_, ?_⟩, ?_, ?_⟩ <;> decide +kernel

end Ics23.Rust
