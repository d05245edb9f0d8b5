import Ics23.Iavl
import Ics23.Rust.Membership

/-!
# Rust: IAVL proofs

The IAVL spec of the Rust crate follows `iavlRules` (`iavlSpec_implements`).  So membership and
non-membership are sound for every IAVL tree, and complete for the trees that IAVL builds; and
checking a non-membership proof never panics, whatever the root.  Soundness and the absence of
panics hold unless two of the strings hashed have the same digest.
-/

namespace Ics23.Rust

open Outcome Logged

variable {H : HostFunctionsProvider} {P : Prost}

/-! ### The prefix checks -/

theorem readVarint_eq (b : Bytes) : readVarint P b = Leb128.decodeSigned b := by
  unfold readVarint Leb128.decodeSigned
  rw [P.decodeVarint_eq]
  cases h : Leb128.decode b with
  | none => rfl
  | some x =>
    obtain ⟨u, rest⟩ := x
    have hu := Leb128.decode_lt h
    simp only [Option.bind_eq_bind, Option.bind_some, Option.map_some, Leb128.unzigzag]
    rw [if_neg (by omega)]
    split_ifs <;> first | rfl | omega

theorem ensureIavlPrefix_eq_ok {p : Bytes} {minHeight : ℤ} {r : Option ℕ} :
    ensureIavlPrefix P p minHeight = .ok r ↔ ∃ n, r = some n ∧ IavlPrefix minHeight p n := by
  unfold ensureIavlPrefix IavlPrefix
  simp only [readVarint_eq, bind_eq_ok, okOr_eq_ok, ensure_eq_ok, pure_eq, Prod.exists,
    readHeader_eq_some, Outcome.ok.injEq]
  constructor
  · rintro ⟨x, b, hx, -, hx0, y, b', hy, -, hy0, z, rest, hz, -, hz0, rfl⟩
    exact ⟨_, rfl, x, y, z, rest, ⟨b, b', hx, hy, hz⟩, hx0, hy0, hz0, rfl⟩
  · rintro ⟨_, rfl, x, y, z, rest, ⟨b, b', hx, hy, hz⟩, hx0, hy0, hz0, rfl⟩
    exact ⟨x, b, hx, (), hx0, y, b', hy, (), hy0, z, rest, hz, (), hz0, rfl⟩

theorem isIavlSpec_iavlSpec : isIavlSpec iavlSpec = true := by decide

theorem iavl_ensureLeafPrefix_eq_ok {p : Bytes} :
    ensureLeafPrefix P p iavlSpec = .ok () ↔ IavlPrefix 0 p 0 := by
  unfold ensureLeafPrefix
  rw [isIavlSpec_iavlSpec, Bool.not_true, if_neg Bool.false_ne_true, bind_eq_ok]
  constructor
  · rintro ⟨_, hpre, hrest⟩
    obtain ⟨n, rfl, h⟩ := ensureIavlPrefix_eq_ok.1 hpre
    rwa [ensure_eq_ok.1 hrest] at h
  · intro h
    exact ⟨some 0, ensureIavlPrefix_eq_ok.2 ⟨0, rfl, h⟩, rfl⟩

theorem iavl_ensureInnerPrefix_iff {p : Bytes} {minHeight : ℤ} {hashOp : Int32} :
    ensureInnerPrefix P p iavlSpec minHeight hashOp = .ok () ↔
      (IavlPrefix minHeight p 1 ∨ IavlPrefix minHeight p 34) ∧ hashOp = 1 := by
  unfold ensureInnerPrefix
  rw [isIavlSpec_iavlSpec, Bool.not_true, if_neg Bool.false_ne_true, bind_eq_ok]
  constructor
  · rintro ⟨_, hpre, hrest⟩
    obtain ⟨n, rfl, h⟩ := ensureIavlPrefix_eq_ok.1 hpre
    obtain ⟨hn, hhash⟩ := seq_eq_ok.1 hrest
    refine ⟨?_, ensure_eq_ok.1 hhash⟩
    rcases ensure_eq_ok.1 hn with rfl | rfl
    exacts [.inl h, .inr h]
  · rintro ⟨h | h, rfl⟩
    · exact ⟨some 1, ensureIavlPrefix_eq_ok.2 ⟨1, rfl, h⟩, rfl⟩
    · exact ⟨some 34, ensureIavlPrefix_eq_ok.2 ⟨34, rfl, h⟩, rfl⟩

theorem iavl_ensureInnerPrefix_eq_ok {p : Bytes} {layer : ℕ} :
    ensureInnerPrefix P p iavlSpec layer 1 = .ok () ↔
      IavlPrefix layer p 1 ∨ IavlPrefix layer p 34 := by
  rw [iavl_ensureInnerPrefix_iff, and_iff_left rfl]

theorem iavlInnerSpec_binary : BinaryInner iavlInnerSpec iavlSlots where
  childOrder := rfl
  childSize := rfl
  minPrefixLength := rfl
  maxPrefixLength := rfl
  emptyChild := rfl

theorem iavlSpec_implements (P : Prost) : Implements P iavlSpec iavlInnerSpec iavlRules where
  leafSpec := rfl
  innerSpec := rfl
  shape := iavlInnerSpec_binary
  innerHash := rfl
  minDepth := rfl
  prehash := rfl
  ensureLeafPrefix_eq_ok := iavl_ensureLeafPrefix_eq_ok
  ensureInnerPrefix_eq_ok := iavl_ensureInnerPrefix_eq_ok

/-- Honest proofs for the tree with the keys `[1]` and `[3]` are accepted. -/
theorem iavlPair_valid (p : List Side × IavlLeaf) (hp : iavlPair.leafAt p.1 = some p.2) :
    (iavlFormat.opening H iavlPair p).Valid iavlRules H Set.univ (iavlFormat.root H iavlPair) :=
  iavl_valid_opening iavlPair_shape iavlPair_leaves hp

/-! ### Soundness -/

/-- No IAVL subtree is empty, so that no digest can be one of an empty subtree. -/
theorem iavl_fresh {S : Set Bytes} : ∀ m ∈ S, ∀ e, H.sha m ≠ iavlFormat.blank e :=
  fun _ _ e => e.elim

variable (H P)

theorem iavl_verifyMembership_sound (T : IavlTree) (proof : CommitmentProof) (key value : Bytes)
    (accepted :
      (verifyMembership H P proof iavlSpec (iavlFormat.root H T) key value).out = .ok true) :
    (∃ l ∈ T.leaves, l.key = key ∧ l.value = value) ∨
      H.ShaCollision (iavlFormat.strings H T ∪
        {q | q ∈ (verifyMembership H P proof iavlSpec (iavlFormat.root H T) key value).log}) := by
  by_contra h
  rw [not_or] at h
  apply h.1
  exact (iavlSpec_implements P).mem_of_verifyMembership (iavlFormat_matches H) (H.injOn_sha h.2)
    iavl_fresh Set.subset_union_left (iavlFormat_readable H T)
    ⟨accepted, fun _ hq => .inr hq⟩

theorem iavlPair_verifyMembership_sound :
    let proof := CommitmentProof.exist (honestExistence iavlFormat .sha256Only iavlPair
      ([.left], ⟨1, [1], [10], by decide, by decide⟩))
    (∃ l ∈ iavlPair.leaves, l.key = [1] ∧ l.value = [10]) ∨
      HostFunctionsProvider.sha256Only.ShaCollision
        (iavlFormat.strings .sha256Only iavlPair ∪
          {q | q ∈ (verifyMembership .sha256Only .leb128 proof iavlSpec
            (iavlFormat.root .sha256Only iavlPair) [1] [10]).log}) :=
  iavl_verifyMembership_sound .sha256Only .leb128 iavlPair _ [1] [10]
    ((iavlSpec_implements .leb128).verifyMembership_honest (iavlFormat_matches .sha256Only)
      iavlPair_valid rfl)

theorem iavl_verifyNonMembership_sound (T : IavlTree) (sorted : T.Sorted IavlLeaf.key)
    (proof : CommitmentProof) (key : Bytes)
    (accepted :
      (verifyNonMembership H P proof iavlSpec (iavlFormat.root H T) key).out = .ok true) :
    (∀ l ∈ T.leaves, l.key ≠ key) ∨
      H.ShaCollision (iavlFormat.strings H T ∪
        {q | q ∈ (verifyNonMembership H P proof iavlSpec (iavlFormat.root H T) key).log}) := by
  by_contra h
  rw [not_or] at h
  apply h.1
  have empty : iavlSlots.EmptySound (iavlFormat.nodes H) H.sha T :=
    Slots.emptySound_of_empty_eq_nil H.length_sha iavlFormat.length_blank rfl T
  have encloses := (iavlSpec_implements P).encloses_of_verifyNonMembership (iavlFormat_matches H)
    (H.injOn_sha h.2) iavl_fresh Set.subset_union_left empty ⟨accepted, fun _ hq => .inr hq⟩
  exact TreeFormat.not_mem_of_encloses (iavlFormat_readable H T) sorted encloses

theorem iavlPair_verifyNonMembership_sound :
    let proof := CommitmentProof.nonexist (honestNonExistence iavlFormat .sha256Only iavlPair [2])
    (∀ l ∈ iavlPair.leaves, l.key ≠ [2]) ∨
      HostFunctionsProvider.sha256Only.ShaCollision
        (iavlFormat.strings .sha256Only iavlPair ∪
          {q | q ∈ (verifyNonMembership .sha256Only .leb128 proof iavlSpec
            (iavlFormat.root .sha256Only iavlPair) [2]).log}) :=
  iavl_verifyNonMembership_sound .sha256Only .leb128 iavlPair iavlPair_sorted _ [2]
    ((iavlSpec_implements .leb128).verifyNonMembership_honest (iavlFormat_matches .sha256Only)
      iavlPair_valid iavlPair_sorted iavlPair.leaves_ne_nil (iavl_fits iavlPair_shape)
      (by decide))

/-! ### Completeness -/

/-- Honest proofs are accepted: of every leaf, and of the absence of every other key. -/
theorem iavl_complete (T : IavlTree) (shape : IavlShape T) (leaves : IavlLeaves T)
    (sorted : T.Sorted IavlLeaf.key) :
    (∀ p : List Side × IavlLeaf, T.leafAt p.1 = some p.2 →
      (verifyMembership H P (.exist (honestExistence iavlFormat H T p)) iavlSpec
        (iavlFormat.root H T) p.2.key p.2.value).out = .ok true) ∧
    (∀ key, (∀ l ∈ T.leaves, l.key ≠ key) →
      (verifyNonMembership H P (.nonexist (honestNonExistence iavlFormat H T key)) iavlSpec
        (iavlFormat.root H T) key).out = .ok true) := by
  have I := iavlSpec_implements P
  have M := iavlFormat_matches H
  have valid (p : List Side × IavlLeaf) (hp : T.leafAt p.1 = some p.2) :
      (iavlFormat.opening H T p).Valid iavlRules H Set.univ (iavlFormat.root H T) :=
    iavl_valid_opening shape leaves hp
  refine ⟨fun p hp => I.verifyMembership_honest M valid hp, fun key absent => ?_⟩
  exact I.verifyNonMembership_honest M valid sorted T.leaves_ne_nil (iavl_fits shape) absent

theorem iavlPair_complete :
    (verifyMembership .sha256Only .leb128 (.exist (honestExistence iavlFormat .sha256Only iavlPair
      ([.left], ⟨1, [1], [10], by decide, by decide⟩))) iavlSpec
      (iavlFormat.root .sha256Only iavlPair) [1] [10]).out = .ok true ∧
    (verifyNonMembership .sha256Only .leb128
      (.nonexist (honestNonExistence iavlFormat .sha256Only iavlPair [2])) iavlSpec
      (iavlFormat.root .sha256Only iavlPair) [2]).out = .ok true := by
  have complete :=
    iavl_complete .sha256Only .leb128 iavlPair iavlPair_shape iavlPair_leaves iavlPair_sorted
  exact ⟨complete.1 ([.left], ⟨1, [1], [10], by decide, by decide⟩) rfl,
    complete.2 [2] (by decide)⟩

end Ics23.Rust
