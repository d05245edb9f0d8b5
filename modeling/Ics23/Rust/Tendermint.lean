import Ics23.Plain
import Ics23.Rust.Membership

/-!
# Rust: Tendermint proofs

The Tendermint spec of the Rust crate follows `tendermintRules`.  Of the prefix of a leaf it only
checks the first byte, so that a proof may cut the message of a leaf at another place than the tree
did, and claim another key.  Verification is sound for exactly those trees where this makes no
difference (`tendermint_sound_iff`); `tendermint_unsound` is a tree where it does.
-/

namespace Ics23.Rust

open Outcome Logged

variable {H : HostFunctionsProvider} {P : Prost}

theorem isIavlSpec_tendermintSpec : isIavlSpec tendermintSpec = false := by decide

theorem tendermintInnerSpec_binary : BinaryInner tendermintInnerSpec (plainSlots []) where
  childOrder := rfl
  childSize := rfl
  minPrefixLength := rfl
  maxPrefixLength := rfl
  emptyChild := rfl

theorem tendermintSpec_implements (P : Prost) :
    Implements P tendermintSpec tendermintInnerSpec tendermintRules where
  leafSpec := rfl
  innerSpec := rfl
  shape := tendermintInnerSpec_binary
  innerHash := rfl
  minDepth := rfl
  prehash := rfl
  ensureLeafPrefix_eq_ok {p} := by
    simp [ensureLeafPrefix, isIavlSpec_tendermintSpec, tendermintRules]
  ensureInnerPrefix_eq_ok {p layer} := by
    simp [ensureInnerPrefix, isIavlSpec_tendermintSpec, tendermintRules]

/-! ### Soundness -/

variable (H P)

/-- Whatever proof is accepted for a root, what it says is true of the tree, or two of the strings
hashed have the same digest. -/
def TendermintSound (T : TendermintTree) : Prop :=
  ∀ (proof : CommitmentProof) (key : Bytes),
    (∀ value,
      (verifyMembership H P proof tendermintSpec (tendermintFormat.root H T) key value).out =
        .ok true →
      (∃ l ∈ T.leaves, l.key = key ∧ l.value = value) ∨
        H.ShaCollision (tendermintFormat.strings H T ∪ {q | q ∈
          (verifyMembership H P proof tendermintSpec (tendermintFormat.root H T) key value).log})) ∧
    ((verifyNonMembership H P proof tendermintSpec (tendermintFormat.root H T) key).out =
        .ok true →
      (∀ l ∈ T.leaves, l.key ≠ key) ∨
        H.ShaCollision (tendermintFormat.strings H T ∪ {q | q ∈
          (verifyNonMembership H P proof tendermintSpec (tendermintFormat.root H T) key).log}))

variable {H P}

theorem tendermint_fresh {S : Set Bytes} : ∀ m ∈ S, ∀ e, H.sha m ≠ tendermintFormat.blank e :=
  fun _ _ e => e.elim

theorem tendermintSound_of_safe {T : TendermintTree} (safe : TendermintSafe T) :
    TendermintSound H P T := by
  have I := tendermintSpec_implements P
  have M := tendermintFormat_matches H
  refine fun proof key => ⟨fun value accepted => ?_, fun accepted => ?_⟩
  · by_contra h
    rw [not_or] at h
    apply h.1
    obtain ⟨l, hl, hshows, hvalue⟩ := I.shows_of_verifyMembership M (H.injOn_sha h.2)
      tendermint_fresh Set.subset_union_left ⟨accepted, fun _ hq => .inr hq⟩
    obtain ⟨l', hl', hkey, hvalue'⟩ :=
      safe.mem_of_readsAs l hl key (tendermint_shows_iff.1 hshows)
    exact ⟨l', hl', hkey, hvalue'.trans hvalue⟩
  · by_contra h
    rw [not_or] at h
    apply h.1
    rintro l hl rfl
    apply safe.not_encloses l hl
    exact tendermint_encloses_iff.1 (I.encloses_of_verifyNonMembership M (H.injOn_sha h.2)
      tendermint_fresh Set.subset_union_left (tendermint_emptySound T)
      ⟨accepted, fun _ hq => .inr hq⟩)

/-- If the strings of the tree do not collide, every reading of a leaf is accepted, and so is every
gap between readings. -/
theorem safe_of_tendermintSound {T : TendermintTree} (sound : TendermintSound H P T)
    (unique : ¬ H.ShaCollision (tendermintFormat.strings H T)) : TendermintSafe T := by
  have I := tendermintSpec_implements P
  have M := tendermintFormat_matches H
  -- a proof that hashes only strings of the tree adds no collision
  have same {log : List Bytes} (hlog : ∀ q ∈ log, q ∈ tendermintFormat.strings H T) :
      ¬ H.ShaCollision (tendermintFormat.strings H T ∪ {q | q ∈ log}) := fun h =>
    unique (h.mono (Set.union_subset (Set.Subset.refl _) hlog))
  constructor
  · intro l hl k hk
    obtain ⟨ds, hds⟩ := BinTree.mem_leaves.1 hl
    obtain ⟨-, -, p, hp, hread⟩ := tendermint_shows_iff (H := H).2 hk
    have hvalid := M.valid_reading (S := tendermintFormat.strings H T) (p := (ds, l))
      (Set.Subset.refl _) hds hk.1 hk.2.1 hp (fun hf => absurd hf (by simp [tendermintFormat]))
      hread (tendermint_cutsOk T ds)
    rw [← opening_existenceProof tendermintRules.leaves (tendermintFormat.reading H T _ p k)]
      at hvalid
    have accepted := I.verifyMembership_exist (canonical_existenceProof _ _) hvalid
    exact ((sound _ k).1 l.value accepted.1).resolve_right (same accepted.2)
  · intro l hl hencloses
    obtain ⟨left, right, hrefutes⟩ := M.refutes_of_encloses (S := tendermintFormat.strings H T)
      (Set.Subset.refl _) (tendermint_fits T) (tendermint_cutsOk T) rfl
      (tendermint_encloses_iff.2 hencloses)
    obtain ⟨non, accepted⟩ := I.exists_verifyNonMembership hrefutes
    exact ((sound _ l.key).2 accepted.1).resolve_right (same accepted.2) l hl rfl

variable (H P)

/-- Exactly the safe trees are verified soundly, but for trees whose own strings collide. -/
theorem tendermint_sound_iff (T : TendermintTree) :
    TendermintSound H P T ↔
      TendermintSafe T ∨ H.ShaCollision (tendermintFormat.strings H T) := by
  constructor
  · intro sound
    by_cases unique : H.ShaCollision (tendermintFormat.strings H T)
    · exact .inr unique
    · exact .inl (safe_of_tendermintSound sound unique)
  · rintro (safe | collision)
    · exact tendermintSound_of_safe safe
    · exact fun proof key => ⟨fun value _ => .inr (collision.mono Set.subset_union_left),
        fun _ => .inr (collision.mono Set.subset_union_left)⟩

/-- A tree with one leaf, whose key begins like the length of a key. -/
def confusedTree : TendermintTree := .leaf ⟨[1, 0x61], [7]⟩

/-- The key `[0x61]`, with the length of the real key and its first byte in the leaf prefix. -/
def confusedProof : ExistenceProof where
  key := [0x61]
  value := [7]
  leaf := some { tendermintLeafSpec with prefix_ := [0, 2] }
  path := []

/-- A key that is not in the tree is accepted as present, and the one that is as absent, although
no two strings collide. -/
theorem tendermint_unsound :
    let H := HostFunctionsProvider.sha256Only
    let root := tendermintFormat.root H confusedTree
    let present := verifyMembership H .leb128 (.exist confusedProof) tendermintSpec root [0x61] [7]
    let absent := verifyNonMembership H .leb128
      (.nonexist { key := [1, 0x61], left := none, right := some confusedProof }) tendermintSpec
      root [1, 0x61]
    confusedTree.Sorted KeyValue.key ∧
      (present.out = .ok true ∧ (¬ ∃ l ∈ confusedTree.leaves, l.key = [0x61] ∧ l.value = [7]) ∧
        ¬ H.ShaCollision (tendermintFormat.strings H confusedTree ∪ {q | q ∈ present.log})) ∧
      (absent.out = .ok true ∧ (∃ l ∈ confusedTree.leaves, l.key = [1, 0x61]) ∧
        ¬ H.ShaCollision (tendermintFormat.strings H confusedTree ∪ {q | q ∈ absent.log})) := by
  refine ⟨?_, ⟨?_, ?_, ?_⟩, ?_, ?_, ?_⟩
  · unfold BinTree.Sorted
    decide
  · decide +kernel
  · decide
  · exact HostFunctionsProvider.not_shaCollision_union _ (by decide +kernel)
  · decide +kernel
  · exact ⟨⟨[1, 0x61], [7]⟩, by decide, rfl⟩
  · exact HostFunctionsProvider.not_shaCollision_union _ (by decide +kernel)

end Ics23.Rust
