import Ics23.Trees

/-!
# Tendermint trees and sparse Merkle trees

Both have inner nodes without data, `0x01 ++ left ++ right`, and leaves that begin with `0x00`.  A
sparse tree also has placeholders, whose digest is 32 zero bytes.  The rules ask nothing more of
prefixes than their first byte and their length.

* `tendermintFormat_matches`, `smtFormat_matches`: 65 bytes with one child of 32 bytes left out, the
  rest after it being a multiple of 32, leave two ways to cut.
* `smtFormat_readable`: a sparse leaf is 65 bytes too, and can be read in one way only.
* A Tendermint leaf can be read in several ways: the prefix may reach into the key
  (`tendermint_shows_iff`).
-/

namespace Ics23

structure KeyValue where
  key : Bytes
  value : Bytes
  deriving DecidableEq, Repr

abbrev TendermintTree := BinTree Empty Unit KeyValue

/-- Sparse Merkle trees; the empty subtrees are the placeholders. -/
abbrev SmtTree := BinTree Unit Unit KeyValue

def tendermintFormat : TreeFormat Empty Unit KeyValue where
  blank e := e.elim
  before _ := [1]
  between _ := []
  leaves := { hashedKeys := false, lengths := true }
  header _ := [0]
  key := KeyValue.key
  value := KeyValue.value
  length_blank := TreeFormat.length_elim

def smtFormat : TreeFormat Unit Unit KeyValue where
  blank _ := List.replicate 32 0
  before _ := [1]
  between _ := []
  leaves := { hashedKeys := true, lengths := false }
  header _ := [0]
  key := KeyValue.key
  value := KeyValue.value
  length_blank _ := rfl

/-- Keys and values are not empty. -/
def PlainLeaves {E : Type} (T : BinTree E Unit KeyValue) : Prop :=
  ∀ l ∈ T.leaves, l.key ≠ [] ∧ l.value ≠ []

/-- One byte before two digests. -/
def plainSlots (empty : Bytes) : Slots where
  child := 32
  lo := 1
  hi := 1
  empty := empty
  child_le := by omega
  lo_pos := by omega
  lo_le_hi := by omega
  hi_lt := by omega
  fits := by omega

def tendermintRules : Rules where
  slots := plainSlots []
  leaves := { hashedKeys := false, lengths := true }
  leafHeader _ := True
  innerHeader _ _ := True

def smtRules : Rules where
  slots := plainSlots (List.replicate 32 0)
  leaves := { hashedKeys := true, lengths := false }
  leafHeader _ := True
  innerHeader _ _ := True

variable {H : HostFunctionsProvider}

/-! ### Cutting nodes -/

/-- A node of a format without data in inner nodes can be cut before its left child and before its
right child. -/
theorem plain_cut {E N L : Type} {F : NodeFormat E N L} {R : Rules} {empty : Bytes}
    (slots : R.slots = plainSlots empty) (before : ∀ n, F.before n = [1])
    (between : ∀ n, F.between n = []) {layer : ℕ} {c : Cut}
    {child l r : Bytes} {n : N} (hc : R.InnerCut layer c) (hchild : child.length = 32)
    (hl : l.length = 32) (hr : r.length = 32) (h : c.fill child = F.node n l r) :
    (c = F.leftCut n r ∧ child = l) ∨ (c = F.rightCut n l ∧ child = r) := by
  obtain ⟨p, s⟩ := c
  obtain ⟨-, -, hmin, -, hsuffix⟩ := hc
  rw [slots] at hmin hsuffix
  have hmin : 1 ≤ p.length := hmin
  have hsuffix : s.length % 32 = 0 := hsuffix
  have hnode : p ++ child ++ s = [1] ++ l ++ r := by
    simpa [Cut.fill, NodeFormat.node, before, between] using h
  have hlen := congrArg List.length hnode
  simp only [List.length_append, List.length_singleton, hchild, hl, hr] at hlen
  have hcases : s.length = 32 ∨ s.length = 0 := by omega
  rcases hcases with hs | hs
  · obtain ⟨hchild', rfl⟩ := List.append_inj' hnode (hs.trans hr.symm)
    obtain ⟨rfl, rfl⟩ := List.append_inj' hchild' (hchild.trans hl.symm)
    exact .inl ⟨by simp [NodeFormat.leftCut, before, between], rfl⟩
  · obtain rfl := List.length_eq_zero_iff.1 hs
    rw [List.append_nil] at hnode
    obtain ⟨rfl, rfl⟩ := List.append_inj' hnode (hchild.trans hr.symm)
    exact .inr ⟨by simp [NodeFormat.rightCut, before, between], rfl⟩

theorem tendermintFormat_matches (H : HostFunctionsProvider) :
    tendermintFormat.Matches H tendermintRules where
  leaves_eq := rfl
  length_between _ := rfl
  leafHead_header _ := rfl
  innerHead_before _ := ⟨by simp [tendermintFormat], by simp [tendermintFormat]⟩
  eq_of_fill_eq_node := plain_cut rfl (fun _ => rfl) (fun _ => rfl)

theorem smtFormat_matches (H : HostFunctionsProvider) : smtFormat.Matches H smtRules where
  leaves_eq := rfl
  length_between _ := rfl
  leafHead_header _ := rfl
  innerHead_before _ := ⟨by simp [smtFormat], by simp [smtFormat]⟩
  eq_of_fill_eq_node := plain_cut rfl (fun _ => rfl) (fun _ => rfl)

/-! ### Reading leaves -/

theorem smtRules_readable (H : HostFunctionsProvider) : smtRules.Readable H := by
  intro p p' k k' _ _ h
  have h' : p ++ H.sha k = p' ++ H.sha k' := h
  exact (List.append_inj' h' (by simp)).2

theorem smtFormat_readable (T : SmtTree) : smtFormat.Readable H smtRules T := by
  rintro l - k ⟨-, -, p, -, h⟩
  have h' : p ++ H.sha k = [0] ++ H.sha l.key := h
  exact (List.append_inj' h' (by simp)).2

/-- The length of a key and the key, as they stand in a Tendermint leaf. -/
def framed (key : Bytes) : Bytes := Leb128.encode key.length ++ key

/-- A Tendermint leaf can be read as one with the key `k` if its length and key end with the length
of `k` and `k`. -/
def KeyValue.ReadsAs (l : KeyValue) (k : Bytes) : Prop :=
  k ≠ [] ∧ l.value ≠ [] ∧ framed k <:+ framed l.key

theorem tendermint_shows_iff {l : KeyValue} {k : Bytes} :
    tendermintFormat.Shows H tendermintRules l k ↔ l.ReadsAs k := by
  unfold TreeFormat.Shows KeyValue.ReadsAs
  refine and_congr_right fun _ => and_congr_right fun _ => ?_
  show (∃ p, tendermintRules.LeafPrefix p ∧ p ++ framed k = [0] ++ framed l.key) ↔ _
  constructor
  · rintro ⟨p, ⟨-, hhead⟩, h⟩
    obtain ⟨t, rfl⟩ := List.head?_eq_some_iff.1 hhead
    exact ⟨t, List.cons_injective h⟩
  · rintro ⟨t, ht⟩
    exact ⟨0 :: t, ⟨trivial, rfl⟩, by rw [← ht]; rfl⟩

theorem KeyValue.readsAs_self {l : KeyValue} (hk : l.key ≠ []) (hv : l.value ≠ []) :
    l.ReadsAs l.key := ⟨hk, hv, List.suffix_refl _⟩

/-- Two neighbouring leaves, or an outermost one, can be read as enclosing the key. -/
def TendermintEncloses (T : TendermintTree) (key : Bytes) : Prop :=
  ∃ left right, T.Gap left right ∧
    (∀ ds ∈ left, ∃ l k, T.leafAt ds = some l ∧ l.ReadsAs k ∧ k < key) ∧
    (∀ ds ∈ right, ∃ l k, T.leafAt ds = some l ∧ l.ReadsAs k ∧ key < k)

theorem tendermint_encloses_iff {T : TendermintTree} {key : Bytes} :
    tendermintFormat.Encloses H tendermintRules T key ↔ TendermintEncloses T key := by
  unfold TreeFormat.Encloses TendermintEncloses
  simp only [tendermint_shows_iff]
  rfl

/-- Whatever the leaves are read as, it is there, and encloses no key of the tree. -/
structure TendermintSafe (T : TendermintTree) : Prop where
  mem_of_readsAs : ∀ l ∈ T.leaves, ∀ k, l.ReadsAs k →
    ∃ l' ∈ T.leaves, l'.key = k ∧ l'.value = l.value
  not_encloses : ∀ l ∈ T.leaves, ¬ TendermintEncloses T l.key

/-- A sorted tree is safe if its leaves can be read in one way only, and without empty keys and
values only then: a leaf that can be read as having a smaller key refutes its own key from the left,
and one with a greater key from the right. -/
theorem tendermintSafe_of_readsAs {T : TendermintTree} (sorted : T.Sorted KeyValue.key)
    (h : ∀ l ∈ T.leaves, ∀ k, l.ReadsAs k → k = l.key) : TendermintSafe T := by
  refine ⟨fun l hl k hk => ⟨l, hl, (h l hl k hk).symm, rfl⟩, ?_⟩
  rintro x hx ⟨left, right, gap, hleft, hright⟩
  refine gap.not_mem sorted (k := x.key) ?_ ?_ hx rfl
  · intro ds hds
    obtain ⟨l, k, hl, hk, hlt⟩ := hleft ds hds
    exact ⟨l, hl, h l (BinTree.mem_leaves_of_leafAt hl) k hk ▸ hlt⟩
  · intro ds hds
    obtain ⟨l, k, hl, hk, hlt⟩ := hright ds hds
    exact ⟨l, hl, h l (BinTree.mem_leaves_of_leafAt hl) k hk ▸ hlt⟩

theorem tendermintSafe_iff {T : TendermintTree} (sorted : T.Sorted KeyValue.key)
    (leaves : PlainLeaves T) :
    TendermintSafe T ↔ ∀ l ∈ T.leaves, ∀ k, l.ReadsAs k → k = l.key := by
  refine ⟨fun safe l hl k hk => ?_, tendermintSafe_of_readsAs sorted⟩
  by_contra hne
  apply safe.not_encloses l hl
  obtain ⟨ds, hds⟩ := BinTree.mem_leaves.1 hl
  rcases Std.lt_trichotomy k l.key with hlt | heq | hgt
  · obtain ⟨right, hgap, hright⟩ := BinTree.exists_gap_after hds
    refine ⟨some ds, right, hgap, fun d hd => ?_, fun d hd => ?_⟩
    · rw [← Option.some.inj hd]
      exact ⟨l, k, hds, hk, hlt⟩
    · obtain ⟨r, hr⟩ := hright d hd
      obtain ⟨hrk, hrv⟩ := leaves r (BinTree.mem_leaves_of_leafAt hr)
      obtain rfl := hd
      exact ⟨r, r.key, hr, r.readsAs_self hrk hrv, BinTree.Neighbors.lt sorted hgap hds hr⟩
  · exact absurd heq hne
  · obtain ⟨left, hgap, hleft⟩ := BinTree.exists_gap_before hds
    refine ⟨left, some ds, hgap, fun d hd => ?_, fun d hd => ?_⟩
    · obtain ⟨r, hr⟩ := hleft d hd
      obtain ⟨hrk, hrv⟩ := leaves r (BinTree.mem_leaves_of_leafAt hr)
      obtain rfl := hd
      exact ⟨r, r.key, hr, r.readsAs_self hrk hrv, BinTree.Neighbors.lt sorted hgap hr hds⟩
    · rw [← Option.some.inj hd]
      exact ⟨l, k, hds, hk, hgt⟩

/-! ### Empty subtrees -/

theorem tendermint_emptySound (T : TendermintTree) :
    tendermintRules.slots.EmptySound (tendermintFormat.nodes H) H.sha T :=
  Slots.emptySound_of_empty_eq_nil H.length_sha tendermintFormat.length_blank rfl T

/-- The slot of a subtree that is no placeholder reads as empty only if a string hashes to zeros. -/
theorem smt_emptySound {T : SmtTree}
    (fresh : ∀ m ∈ (smtFormat.nodes H).images H.sha T, H.sha m ≠ List.replicate 32 0) :
    smtRules.slots.EmptySound (smtFormat.nodes H) H.sha T := by
  induction T with
  | empty e => trivial
  | leaf l => trivial
  | node n a b iha ihb =>
    simp only [NodeFormat.images, List.forall_mem_cons, List.forall_mem_append] at fresh
    refine ⟨⟨fun h => ?_, fun h => ?_⟩, iha fresh.2.1, ihb fresh.2.2⟩
    · refine NodeFormat.noLeaf_of_digest_eq_blank (e := ()) fresh.2.1 ?_
      rw [← List.append_nil (NodeFormat.digest _ _ a)]
      exact h.symm
    · exact NodeFormat.noLeaf_of_digest_eq_blank (e := ()) fresh.2.2 h.symm

/-- A child without a leaf is a placeholder.  So no inner node has two placeholders below it, if
the tree has a leaf. -/
def SmtShape (T : SmtTree) : Prop :=
  T.AllNodes fun _ a b => (a = .empty () ∨ a.leaves ≠ []) ∧ (b = .empty () ∨ b.leaves ≠ [])

theorem smt_fits {T : SmtTree} (shape : SmtShape T) :
    smtRules.slots.Fits (smtFormat.nodes H) H.sha T := by
  refine shape.imp fun n a b hn => ⟨⟨le_refl 1, le_refl 1⟩, fun h => ?_, fun h => ?_⟩
  · rw [hn.1.resolve_right (not_not_intro h)]
    rfl
  · rw [hn.2.resolve_right (not_not_intro h)]
    rfl

theorem tendermint_fits (T : TendermintTree) :
    tendermintRules.slots.Fits (tendermintFormat.nodes H) H.sha T :=
  BinTree.allNodes_of_forall (fun _ a b => ⟨⟨le_refl 1, le_refl 1⟩,
    fun h => absurd h a.leaves_ne_nil, fun h => absurd h b.leaves_ne_nil⟩) T

/-! ### Honest cuts -/

/-- All cuts of a tree without data in inner nodes follow the rules. -/
theorem plain_cutsOk {E L : Type} {F : NodeFormat E Unit L} {hash : Bytes → Bytes} {R : Rules}
    {empty : Bytes} (slots : R.slots = plainSlots empty)
    (headers : ∀ layer p, R.innerHeader layer p)
    (before : ∀ n, F.before n = [1]) (between : ∀ n, F.between n = [])
    (hlen : ∀ T, (F.digest hash T).length = 32) {T : BinTree E Unit L} (layer : ℕ)
    (ds : List Side) :
    R.CutsOk layer (F.cuts hash T ds) := by
  induction T generalizing layer ds with
  | empty e => simp [NodeFormat.cuts, Rules.CutsOk]
  | leaf l => simp [NodeFormat.cuts, Rules.CutsOk]
  | node n a b iha ihb =>
    rcases ds with _ | ⟨_ | _, ds⟩
    · simp [NodeFormat.cuts, Rules.CutsOk]
    · rw [NodeFormat.cuts, Rules.cutsOk_append]
      refine ⟨iha _ _, ⟨headers _ _, ?_⟩, trivial⟩
      simp [slots, plainSlots, NodeFormat.leftCut, before, between, hlen, InnerHead]
    · rw [NodeFormat.cuts, Rules.cutsOk_append]
      refine ⟨ihb _ _, ⟨headers _ _, ?_⟩, trivial⟩
      simp [slots, plainSlots, NodeFormat.rightCut, before, between, hlen, InnerHead]

theorem tendermint_cutsOk (T : TendermintTree) (ds : List Side) :
    tendermintRules.CutsOk 1 ((tendermintFormat.nodes H).cuts H.sha T ds) :=
  plain_cutsOk rfl (fun _ _ => trivial) (fun _ => rfl) (fun _ => rfl)
    (NodeFormat.length_digest H.length_sha tendermintFormat.length_blank) 1 ds

theorem smt_cutsOk (T : SmtTree) (ds : List Side) :
    smtRules.CutsOk 1 ((smtFormat.nodes H).cuts H.sha T ds) :=
  plain_cutsOk rfl (fun _ _ => trivial) (fun _ => rfl) (fun _ => rfl)
    (NodeFormat.length_digest H.length_sha smtFormat.length_blank) 1 ds

theorem smt_valid_opening {T : SmtTree} (leaves : PlainLeaves T) {p : List Side × KeyValue}
    (hp : T.leafAt p.1 = some p.2) :
    (smtFormat.opening H T p).Valid smtRules H Set.univ (smtFormat.root H T) := by
  obtain ⟨hkey, hvalue⟩ := leaves p.2 (BinTree.mem_leaves_of_leafAt hp)
  exact (smtFormat_matches H).valid_opening (Set.subset_univ _) hp hkey hvalue ⟨trivial, rfl⟩
    (smt_cutsOk T p.1)

/-- A tree with the keys `[3]` and `[2]`, in the order of their hashes, and a placeholder. -/
def smtPair : SmtTree :=
  .node () (.leaf ⟨[3], [30]⟩) (.node () (.empty ()) (.leaf ⟨[2], [20]⟩))

theorem smtPair_leaves : PlainLeaves smtPair := by
  unfold PlainLeaves
  decide

theorem smtPair_shape : SmtShape smtPair := by
  simp [SmtShape, smtPair, BinTree.AllNodes, BinTree.leaves]

theorem smtPair_sorted :
    smtPair.Sorted fun l => HostFunctionsProvider.sha256Only.sha l.key := by
  unfold BinTree.Sorted
  decide +kernel

theorem smtPair_absent : ∀ l ∈ smtPair.leaves,
    HostFunctionsProvider.sha256Only.sha l.key ≠ HostFunctionsProvider.sha256Only.sha [1] := by
  decide +kernel

end Ics23
