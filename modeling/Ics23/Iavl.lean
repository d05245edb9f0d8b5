import Ics23.Trees

/-!
# IAVL trees

The node format of IAVL trees, and the rules for proofs about them: a leaf prefix is three varints
(height, size and version of the node) and nothing more; the prefix of an inner node is three
varints, with a height that grows from layer to layer, followed by 1 byte (before a left child) or
34 bytes (before a right child).

* `iavlFormat_matches`: the three varints are read alike from a prefix and from the whole node, so
  that a prefix ends where the child begins.
* `iavlFormat_readable`: for the same reason a leaf cannot be read in two ways.
-/

namespace Ics23

open Leb128

/-! ### Nodes -/

/-- The header of an inner node. -/
structure IavlHeader where
  height : ℤ
  size : ℤ
  version : ℤ
  height_pos : 1 ≤ height
  height_lt : height < 2 ^ 63
  size_nonneg : 0 ≤ size
  size_lt : size < 2 ^ 63
  version_nonneg : 0 ≤ version
  version_lt : version < 2 ^ 63

structure IavlLeaf where
  version : ℤ
  key : Bytes
  value : Bytes
  le_version : -2 ^ 63 ≤ version
  version_lt : version < 2 ^ 63

abbrev IavlTree := BinTree Empty IavlHeader IavlLeaf

def IavlHeader.bytes (h : IavlHeader) : Bytes :=
  encodeSigned h.height ++ encodeSigned h.size ++ encodeSigned h.version

/-- A leaf has height 0 and size 1. -/
def IavlLeaf.header (l : IavlLeaf) : Bytes :=
  encodeSigned 0 ++ encodeSigned 1 ++ encodeSigned l.version

/-- Both children of an inner node, like the value of a leaf, come after their length, 32. -/
def iavlFormat : TreeFormat Empty IavlHeader IavlLeaf where
  blank e := e.elim
  before h := h.bytes ++ [0x20]
  between _ := [0x20]
  leaves := { hashedKeys := false, lengths := true }
  header := IavlLeaf.header
  key := IavlLeaf.key
  value := IavlLeaf.value
  length_blank := TreeFormat.length_elim

/-! ### Prefixes -/

/-- Height, size and version at the beginning of a string, and what follows. -/
def readHeader (b : Bytes) : Option (ℤ × ℤ × ℤ × Bytes) := do
  let (height, b) ← decodeSigned b
  let (size, b) ← decodeSigned b
  let (version, b) ← decodeSigned b
  return (height, size, version, b)

/-- The prefix is a header with at least the given height, and `n` more bytes. -/
def IavlPrefix (minHeight : ℤ) (p : Bytes) (n : ℕ) : Prop :=
  ∃ height size version rest, readHeader p = some (height, size, version, rest) ∧
    minHeight ≤ height ∧ 0 ≤ size ∧ 0 ≤ version ∧ rest.length = n

def iavlSlots : Slots where
  child := 33
  lo := 4
  hi := 12
  empty := []
  child_le := by omega
  lo_pos := by omega
  lo_le_hi := by omega
  hi_lt := by omega
  fits := by omega

def iavlRules : Rules where
  slots := iavlSlots
  leaves := { hashedKeys := false, lengths := true }
  leafHeader p := IavlPrefix 0 p 0
  innerHeader layer p := IavlPrefix layer p 1 ∨ IavlPrefix layer p 34

theorem readHeader_eq_some {b rest : Bytes} {x y z : ℤ} :
    readHeader b = some (x, y, z, rest) ↔
      ∃ b' b'', decodeSigned b = some (x, b') ∧ decodeSigned b' = some (y, b'') ∧
        decodeSigned b'' = some (z, rest) := by
  simp only [readHeader, Option.bind_eq_bind, Option.bind_eq_some_iff, Option.pure_def,
    Option.some.injEq, Prod.exists, Prod.mk.injEq]
  constructor
  · rintro ⟨_, b', h1, _, b'', h2, _, _, h3, rfl, rfl, rfl, rfl⟩
    exact ⟨b', b'', h1, h2, h3⟩
  · rintro ⟨b', b'', h1, h2, h3⟩
    exact ⟨x, b', h1, y, b'', h2, z, rest, h3, rfl, rfl, rfl, rfl⟩

/-- A header is read alike from every extension of a string. -/
theorem readHeader_append {b rest : Bytes} {x y z : ℤ} (t : Bytes)
    (h : readHeader b = some (x, y, z, rest)) :
    readHeader (b ++ t) = some (x, y, z, rest ++ t) := by
  obtain ⟨b', b'', h1, h2, h3⟩ := readHeader_eq_some.1 h
  exact readHeader_eq_some.2 ⟨b' ++ t, b'' ++ t, decodeSigned_append t h1,
    decodeSigned_append t h2, decodeSigned_append t h3⟩

theorem IavlHeader.readHeader_bytes (h : IavlHeader) (t : Bytes) :
    readHeader (h.bytes ++ t) = some (h.height, h.size, h.version, t) := by
  have h1 := h.height_pos
  have h2 := h.size_nonneg
  have h3 := h.version_nonneg
  unfold IavlHeader.bytes
  rw [List.append_assoc, List.append_assoc]
  exact readHeader_eq_some.2 ⟨_, _,
    decodeSigned_encodeSigned _ (by omega) h.height_lt,
    decodeSigned_encodeSigned _ (by omega) h.size_lt,
    decodeSigned_encodeSigned _ (by omega) h.version_lt⟩

theorem IavlLeaf.readHeader_header (l : IavlLeaf) (t : Bytes) :
    readHeader (l.header ++ t) = some (0, 1, l.version, t) := by
  unfold IavlLeaf.header
  rw [List.append_assoc, List.append_assoc]
  exact readHeader_eq_some.2 ⟨_, _, decodeSigned_encodeSigned _ (by omega) (by omega),
    decodeSigned_encodeSigned _ (by omega) (by omega),
    decodeSigned_encodeSigned _ l.le_version l.version_lt⟩

theorem IavlHeader.innerHead_bytes (h : IavlHeader) : InnerHead h.bytes := by
  have hpos := h.height_pos
  unfold IavlHeader.bytes
  rw [List.append_assoc]
  refine InnerHead.append ⟨encode_ne_nil _, fun hz => ?_⟩ _
  obtain ⟨t, ht⟩ := List.head?_eq_some_iff.1 hz
  have := encodeSigned_eq_zero_cons (s := []) (by rw [List.append_nil]; exact ht)
  omega

theorem encodeSigned_zero : encodeSigned 0 = [0] := by
  rw [encodeSigned, show zigzag 0 = 0 from rfl, encode_of_lt (by omega)]
  rfl

theorem IavlLeaf.leafHead_header (l : IavlLeaf) : LeafHead l.header := by
  unfold IavlLeaf.header
  rw [encodeSigned_zero]
  rfl

/-! ### Reading nodes -/

theorem iavlRules_readable (H : HostFunctionsProvider) : iavlRules.Readable H := by
  rintro p p' k k' ⟨⟨_, _, _, rest, hread, -, -, -, hrest⟩, -⟩
    ⟨⟨_, _, _, rest', hread', -, -, -, hrest'⟩, -⟩ h
  rw [List.length_eq_zero_iff] at hrest hrest'
  have h1 := readHeader_append (iavlRules.leaves.frame (iavlRules.leaves.treeKey H k)) hread
  have h2 := readHeader_append (iavlRules.leaves.frame (iavlRules.leaves.treeKey H k')) hread'
  rw [h] at h1
  have hframe := congrArg (fun x => x.2.2.2) (Option.some.inj (h1.symm.trans h2))
  simp only [hrest, hrest', List.nil_append] at hframe
  exact LeafFormat.frame_inj hframe

theorem iavlFormat_readable (H : HostFunctionsProvider) (T : IavlTree) :
    iavlFormat.Readable H iavlRules T := by
  rintro l - k ⟨-, -, p, ⟨⟨height, size, version, rest, hread, -, -, -, hrest⟩, -⟩, h⟩
  rw [List.length_eq_zero_iff] at hrest
  have h1 := readHeader_append (iavlFormat.leaves.frame (iavlFormat.leaves.treeKey H k)) hread
  have h2 := l.readHeader_header (iavlFormat.leaves.frame (iavlFormat.treeKey H l))
  rw [h] at h1
  have hframe := congrArg (fun x => x.2.2.2) (Option.some.inj (h1.symm.trans h2))
  simp only [hrest, List.nil_append] at hframe
  exact LeafFormat.frame_inj hframe

theorem iavlFormat_matches (H : HostFunctionsProvider) : iavlFormat.Matches H iavlRules where
  leaves_eq := rfl
  length_between _ := rfl
  leafHead_header := IavlLeaf.leafHead_header
  innerHead_before n := n.innerHead_bytes.append _
  eq_of_fill_eq_node {layer c child n l r} hc hchild hl hr h := by
    obtain ⟨p, s⟩ := c
    -- the header read from the prefix is the header of the node
    have split (rest : Bytes) (hread : ∃ x y z, readHeader p = some (x, y, z, rest)) :
        p = n.bytes ++ rest ∧ rest ++ (child ++ s) = [0x20] ++ (l ++ ([0x20] ++ r)) := by
      obtain ⟨x, y, z, hread⟩ := hread
      have hnode : p ++ (child ++ s) = n.bytes ++ ([0x20] ++ (l ++ ([0x20] ++ r))) := by
        simpa [Cut.fill, NodeFormat.node, TreeFormat.nodes, iavlFormat] using h
      have h1 := readHeader_append (child ++ s) hread
      rw [hnode, n.readHeader_bytes] at h1
      have hrest := congrArg (fun x => x.2.2.2) (Option.some.inj h1)
      have hpre : p ++ (child ++ s) = (n.bytes ++ rest) ++ (child ++ s) := by
        rw [hnode, List.append_assoc]
        exact congrArg _ hrest
      exact ⟨List.append_cancel_right hpre, hrest.symm⟩
    rcases hc.1 with ⟨x, y, z, rest, hread, -, -, -, hlen⟩ | ⟨x, y, z, rest, hread, -, -, -, hlen⟩
    · obtain ⟨rfl, hnode⟩ := split rest ⟨x, y, z, hread⟩
      obtain ⟨rfl, hchildren⟩ := List.append_inj hnode hlen
      obtain ⟨rfl, rfl⟩ := List.append_inj hchildren (hchild.trans hl.symm)
      exact .inl ⟨rfl, rfl⟩
    · obtain ⟨rfl, hnode⟩ := split rest ⟨x, y, z, hread⟩
      have hright : rest ++ (child ++ s) = ([0x20] ++ l ++ [0x20]) ++ (r ++ []) := by
        simpa using hnode
      obtain ⟨rfl, hlast⟩ := List.append_inj hright (by simp [hlen, hl])
      obtain ⟨rfl, rfl⟩ := List.append_inj hlast (hchild.trans hr.symm)
      exact .inr ⟨by simp [NodeFormat.rightCut, TreeFormat.nodes, iavlFormat], rfl⟩

/-! ### Honest openings -/

def iavlHeight : IavlTree → ℤ
  | .node n _ _ => n.height
  | _ => 0

/-- Heights are as in a real tree, and the headers of inner nodes are short enough for the spec. -/
def IavlShape (T : IavlTree) : Prop :=
  T.AllNodes fun n a b => n.height = 1 + max (iavlHeight a) (iavlHeight b) ∧ n.bytes.length ≤ 11

/-- Keys and values are not empty, and the versions of leaves are not negative. -/
def IavlLeaves (T : IavlTree) : Prop :=
  ∀ l ∈ T.leaves, l.key ≠ [] ∧ l.value ≠ [] ∧ 0 ≤ l.version

section Honest

variable {H : HostFunctionsProvider} {T : IavlTree}

theorem IavlHeader.three_le_length (h : IavlHeader) : 3 ≤ h.bytes.length := by
  have h1 := encode_length_pos (zigzag h.height)
  have h2 := encode_length_pos (zigzag h.size)
  have h3 := encode_length_pos (zigzag h.version)
  simp only [IavlHeader.bytes, encodeSigned, List.length_append]
  omega

theorem IavlHeader.iavlPrefix (h : IavlHeader) {layer : ℤ} (hl : layer ≤ h.height) (t : Bytes) :
    IavlPrefix layer (h.bytes ++ t) t.length :=
  ⟨_, _, _, t, h.readHeader_bytes t, hl, h.size_nonneg, h.version_nonneg, rfl⟩

theorem length_iavl_digest (t : IavlTree) : ((iavlFormat.nodes H).digest H.sha t).length = 32 :=
  NodeFormat.length_digest H.length_sha iavlFormat.length_blank t

theorem iavl_innerCut_left {n : IavlHeader} {layer : ℕ} (hl : layer ≤ n.height)
    (hn : n.bytes.length ≤ 11) (t : IavlTree) :
    iavlRules.InnerCut layer
      ((iavlFormat.nodes H).leftCut n ((iavlFormat.nodes H).digest H.sha t)) := by
  have h3 := n.three_le_length
  have hd := length_iavl_digest (H := H) t
  refine ⟨.inl (n.iavlPrefix hl [0x20]), n.innerHead_bytes.append _, ?_, ?_, ?_⟩
  · show 4 ≤ (n.bytes ++ [0x20]).length
    rw [List.length_append, List.length_singleton]
    omega
  · show (n.bytes ++ [0x20]).length ≤ 12 + 33
    rw [List.length_append, List.length_singleton]
    omega
  · show ([0x20] ++ (iavlFormat.nodes H).digest H.sha t).length % 33 = 0
    rw [List.length_append, hd]
    rfl

theorem iavl_innerCut_right {n : IavlHeader} {layer : ℕ} (hl : layer ≤ n.height)
    (hn : n.bytes.length ≤ 11) (t : IavlTree) :
    iavlRules.InnerCut layer
      ((iavlFormat.nodes H).rightCut n ((iavlFormat.nodes H).digest H.sha t)) := by
  have hd := length_iavl_digest (H := H) t
  have hcut : ((iavlFormat.nodes H).rightCut n ((iavlFormat.nodes H).digest H.sha t)).1 =
      n.bytes ++ ([0x20] ++ (iavlFormat.nodes H).digest H.sha t ++ [0x20]) := by
    simp [NodeFormat.rightCut, TreeFormat.nodes, iavlFormat]
  have hlen : ([0x20] ++ (iavlFormat.nodes H).digest H.sha t ++ [0x20]).length = 34 := by
    rw [List.length_append, List.length_append, hd]
    rfl
  refine ⟨.inr ?_, ?_, ?_, ?_, rfl⟩
  · rw [hcut, ← hlen]
    exact n.iavlPrefix hl _
  · rw [hcut]
    exact n.innerHead_bytes.append _
  · show 4 ≤ _
    rw [hcut, List.length_append, hlen]
    omega
  · show _ ≤ 12 + 33
    rw [hcut, List.length_append, hlen]
    omega

/-- A leaf is at most as deep as the tree is high, so that the heights along its path keep up with
the layers. -/
theorem iavl_cutsOk (shape : IavlShape T) {ds : List Side} {l : IavlLeaf}
    (hl : T.leafAt ds = some l) :
    ((iavlFormat.nodes H).cuts H.sha T ds).length ≤ iavlHeight T ∧
      iavlRules.CutsOk 1 ((iavlFormat.nodes H).cuts H.sha T ds) := by
  induction T generalizing ds with
  | empty e => exact e.elim
  | leaf m => cases ds <;> simp [NodeFormat.cuts, iavlHeight, Rules.CutsOk]
  | node n a b iha ihb =>
    obtain ⟨⟨hheight, hlen⟩, ha, hb⟩ := shape
    rcases ds with _ | ⟨_ | _, ds⟩
    · simp [BinTree.leafAt] at hl
    · obtain ⟨hdepth, hcuts⟩ := iha ha hl
      have hmax := le_max_left (iavlHeight a) (iavlHeight b)
      rw [NodeFormat.cuts, Rules.cutsOk_append, List.length_append, List.length_singleton,
        iavlHeight]
      refine ⟨?_, hcuts, iavl_innerCut_left ?_ hlen b, trivial⟩ <;> push_cast <;> omega
    · obtain ⟨hdepth, hcuts⟩ := ihb hb hl
      have hmax := le_max_right (iavlHeight a) (iavlHeight b)
      rw [NodeFormat.cuts, Rules.cutsOk_append, List.length_append, List.length_singleton,
        iavlHeight]
      refine ⟨?_, hcuts, iavl_innerCut_right ?_ hlen a, trivial⟩ <;> push_cast <;> omega

/-- The honest opening of every leaf is valid. -/
theorem iavl_valid_opening (shape : IavlShape T) (leaves : IavlLeaves T) {p : List Side × IavlLeaf}
    (hp : T.leafAt p.1 = some p.2) :
    (iavlFormat.opening H T p).Valid iavlRules H Set.univ (iavlFormat.root H T) := by
  obtain ⟨hkey, hvalue, hversion⟩ := leaves p.2 (BinTree.mem_leaves_of_leafAt hp)
  refine (iavlFormat_matches H).valid_opening (Set.subset_univ _) hp hkey hvalue ⟨?_, ?_⟩
    (iavl_cutsOk shape hp).2
  · have hread := p.2.readHeader_header []
    rw [List.append_nil] at hread
    exact ⟨0, 1, _, [], hread, le_refl 0, by omega, hversion, rfl⟩
  · exact p.2.leafHead_header

theorem iavl_fits (shape : IavlShape T) : iavlSlots.Fits (iavlFormat.nodes H) H.sha T := by
  refine shape.imp fun n a b hn => ⟨⟨?_, ?_⟩, ?_, ?_⟩
  · show 4 ≤ (n.bytes ++ [0x20]).length
    have := n.three_le_length
    rw [List.length_append, List.length_singleton]
    omega
  · show (n.bytes ++ [0x20]).length ≤ 12
    rw [List.length_append, List.length_singleton]
    omega
  · exact fun h => absurd h a.leaves_ne_nil
  · exact fun h => absurd h b.leaves_ne_nil

end Honest

/-- A tree with the keys `[1]` and `[3]`. -/
def iavlPair : IavlTree :=
  .node ⟨1, 2, 1, by decide, by decide, by decide, by decide, by decide, by decide⟩
    (.leaf ⟨1, [1], [10], by decide, by decide⟩) (.leaf ⟨1, [3], [30], by decide, by decide⟩)

theorem iavlPair_shape : IavlShape iavlPair := ⟨⟨rfl, by decide +kernel⟩, trivial, trivial⟩

theorem iavlPair_leaves : IavlLeaves iavlPair := by
  unfold IavlLeaves
  decide

theorem iavlPair_sorted : iavlPair.Sorted IavlLeaf.key := by
  unfold BinTree.Sorted
  decide

end Ics23
