import Ics23.Plain
import Ics23.Rust.Membership

/-!
# Rust: sparse Merkle tree proofs

The SMT spec of the Rust crate follows `smtRules`.  Membership and non-membership are sound for
every sparse tree in the order of the hashed keys, and non-membership is complete for trees whose
children without leaves are placeholders.
-/

namespace Ics23.Rust

open Outcome Logged

variable {H : HostFunctionsProvider} {P : Prost}

theorem isIavlSpec_smtSpec : isIavlSpec smtSpec = false := by decide

theorem smtInnerSpec_binary : BinaryInner smtInnerSpec (plainSlots (List.replicate 32 0)) where
  childOrder := rfl
  childSize := rfl
  minPrefixLength := rfl
  maxPrefixLength := rfl
  emptyChild := rfl

theorem smtSpec_implements (P : Prost) : Implements P smtSpec smtInnerSpec smtRules where
  leafSpec := rfl
  innerSpec := rfl
  shape := smtInnerSpec_binary
  innerHash := rfl
  minDepth := rfl
  prehash := rfl
  ensureLeafPrefix_eq_ok {p} := by
    simp [ensureLeafPrefix, isIavlSpec_smtSpec, smtRules]
  ensureInnerPrefix_eq_ok {p layer} := by
    simp [ensureInnerPrefix, isIavlSpec_smtSpec, smtRules]

theorem smtPair_valid (p : List Side × KeyValue) (hp : smtPair.leafAt p.1 = some p.2) :
    (smtFormat.opening H smtPair p).Valid smtRules H Set.univ (smtFormat.root H smtPair) :=
  smt_valid_opening smtPair_leaves hp

variable (H P)

/-- Membership and non-membership are sound, unless two of the strings hashed have the same digest
or one of them has the digest of a placeholder. -/
theorem smt_sound (T : SmtTree) (sorted : T.Sorted fun l => H.sha l.key) (proof : CommitmentProof)
    (key : Bytes) :
    (∀ value, (verifyMembership H P proof smtSpec (smtFormat.root H T) key value).out = .ok true →
      (∃ l ∈ T.leaves, l.key = key ∧ l.value = value) ∨
        let strings := smtFormat.strings H T ∪
          {q | q ∈ (verifyMembership H P proof smtSpec (smtFormat.root H T) key value).log}
        H.ShaCollision strings ∨ H.ZeroDigest strings) ∧
    ((verifyNonMembership H P proof smtSpec (smtFormat.root H T) key).out = .ok true →
      (∀ l ∈ T.leaves, l.key ≠ key) ∨
        let strings := smtFormat.strings H T ∪
          {q | q ∈ (verifyNonMembership H P proof smtSpec (smtFormat.root H T) key).log}
        H.ShaCollision strings ∨ H.ZeroDigest strings) := by
  have I := smtSpec_implements P
  have M := smtFormat_matches H
  have hread := smtFormat_readable (H := H) T
  have fresh {S : Set Bytes} (h : ¬ H.ZeroDigest S) : ∀ m ∈ S, ∀ e, H.sha m ≠ smtFormat.blank e :=
    fun m hm _ hz => h ⟨m, hm, hz⟩
  constructor
  · intro value accepted
    by_contra h
    simp only [not_or] at h
    apply h.1
    exact I.mem_of_verifyMembership M (H.injOn_sha h.2.1) (fresh h.2.2) Set.subset_union_left hread
      ⟨accepted, fun _ hq => .inr hq⟩
  · intro accepted
    by_contra h
    simp only [not_or] at h
    apply h.1
    have empty := smt_emptySound (T := T) fun m hm =>
      fresh h.2.2 m (.inl (TreeFormat.image_mem_strings hm)) ()
    have encloses := I.encloses_of_verifyNonMembership M (H.injOn_sha h.2.1) (fresh h.2.2)
      Set.subset_union_left empty ⟨accepted, fun _ hq => .inr hq⟩
    exact TreeFormat.not_mem_of_encloses hread sorted encloses

theorem smtPair_sound :
    ((∃ l ∈ smtPair.leaves, l.key = [3] ∧ l.value = [30]) ∨
      let strings := smtFormat.strings .sha256Only smtPair ∪
        {q | q ∈ (verifyMembership .sha256Only .leb128
          (.exist (honestExistence smtFormat .sha256Only smtPair ([.left], ⟨[3], [30]⟩))) smtSpec
          (smtFormat.root .sha256Only smtPair) [3] [30]).log}
      HostFunctionsProvider.sha256Only.ShaCollision strings ∨
        HostFunctionsProvider.sha256Only.ZeroDigest strings) ∧
    ((∀ l ∈ smtPair.leaves, l.key ≠ [1]) ∨
      let strings := smtFormat.strings .sha256Only smtPair ∪
        {q | q ∈ (verifyNonMembership .sha256Only .leb128
          (.nonexist (honestNonExistence smtFormat .sha256Only smtPair [1])) smtSpec
          (smtFormat.root .sha256Only smtPair) [1]).log}
      HostFunctionsProvider.sha256Only.ShaCollision strings ∨
        HostFunctionsProvider.sha256Only.ZeroDigest strings) := by
  have I := smtSpec_implements .leb128
  have M := smtFormat_matches .sha256Only
  have present := I.verifyMembership_honest M smtPair_valid
    (p := ([.left], ⟨[3], [30]⟩)) rfl
  have absent := I.verifyNonMembership_honest M smtPair_valid smtPair_sorted (by decide)
    (smt_fits smtPair_shape) smtPair_absent
  exact ⟨(smt_sound .sha256Only .leb128 smtPair smtPair_sorted _ [3]).1 [30] present,
    (smt_sound .sha256Only .leb128 smtPair smtPair_sorted _ [1]).2 absent⟩

/-- The honest non-existence proof is accepted for every key whose hash is not that of a key of the
tree. -/
theorem smt_verifyNonMembership_complete (T : SmtTree) (nonempty : T.leaves ≠ [])
    (leaves : PlainLeaves T) (sorted : T.Sorted fun l => H.sha l.key) (shape : SmtShape T)
    (key : Bytes) (absent : ∀ l ∈ T.leaves, H.sha l.key ≠ H.sha key) :
    (verifyNonMembership H P (.nonexist (honestNonExistence smtFormat H T key)) smtSpec
      (smtFormat.root H T) key).out = .ok true :=
  (smtSpec_implements P).verifyNonMembership_honest (smtFormat_matches H)
    (fun _ hp => smt_valid_opening leaves hp) sorted nonempty (smt_fits shape) absent

theorem smtPair_complete :
    (verifyNonMembership .sha256Only .leb128
      (.nonexist (honestNonExistence smtFormat .sha256Only smtPair [1])) smtSpec
      (smtFormat.root .sha256Only smtPair) [1]).out = .ok true :=
  smt_verifyNonMembership_complete .sha256Only .leb128 smtPair (by decide) smtPair_leaves
    smtPair_sorted smtPair_shape [1] smtPair_absent

end Ics23.Rust
