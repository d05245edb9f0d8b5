import Ics23.Openings

/-!
# Trees that rules can be applied to

A `TreeFormat` says how the nodes of a kind of tree are hashed.  `TreeFormat.Matches F R` is what
makes the rules `R` safe for it: an accepted cut of an inner node leaves out one of its children and
nothing else.  Under it, unless there is a collision,

* `Matches.shows_of_valid`: a valid opening of the root of a tree is that of a leaf which can be
  read as having the key of the opening;
* `Matches.encloses_of_refutes`: a key refuted for the root lies between what two neighbouring
  leaves can be read as;

and the honest openings are valid and refute the absent keys (`valid_opening`, `refutes_nearest`).
Where the leaves of a tree can be read in one way only (`Readable`, which not all formats
guarantee), the first two are soundness (`mem_of_valid`, `not_mem_of_encloses`).
-/

namespace Ics23

variable {E N L : Type}

/-- How the nodes of a tree are hashed. -/
structure TreeFormat (E N L : Type) where
  /-- The digest of an empty subtree. -/
  blank : E → Bytes
  before : N → Bytes
  between : N → Bytes
  leaves : LeafFormat
  header : L → Bytes
  key : L → Bytes
  value : L → Bytes
  length_blank : ∀ e, (blank e).length = 32

namespace TreeFormat

/-- Where no subtree is empty, there is no digest to give a length. -/
theorem length_elim (e : Empty) : (e.elim : Bytes).length = 32 := e.elim

variable (F : TreeFormat E N L) (H : HostFunctionsProvider)

def nodes : NodeFormat E N L where
  blank := F.blank
  leaf l := F.leaves.message H (F.header l) (F.key l) (F.value l)
  before := F.before
  between := F.between

def root (T : BinTree E N L) : Bytes := (F.nodes H).digest H.sha T

/-- The strings hashed in building a tree: nodes, values and, where they are hashed, keys. -/
def hashed (T : BinTree E N L) : List Bytes :=
  (F.nodes H).images H.sha T ++ T.leaves.map F.value ++
    if F.leaves.hashedKeys then T.leaves.map F.key else []

def strings (T : BinTree E N L) : Set Bytes := {q | q ∈ F.hashed H T}

def treeKey (l : L) : Bytes := F.leaves.treeKey H (F.key l)

/-- The keys increase from left to right, in the order the verifier compares them. -/
abbrev Sorted (T : BinTree E N L) : Prop := T.Sorted (F.treeKey H)

/-- The opening of a leaf, given with its path, that reads its message as a prefix and a key. -/
def reading (T : BinTree E N L) (p : List Side × L) (prefix_ key : Bytes) : Opening where
  prefix_ := prefix_
  key := key
  value := F.value p.2
  cuts := (F.nodes H).cuts H.sha T p.1

/-- The honest opening of a leaf. -/
def opening (T : BinTree E N L) (p : List Side × L) : Opening :=
  F.reading H T p (F.header p.2) (F.key p.2)

/-- The leaf can be read as one with the key `k`: its message begins with an accepted prefix and
this key. -/
def Shows (R : Rules) (l : L) (k : Bytes) : Prop :=
  k ≠ [] ∧ F.value l ≠ [] ∧ ∃ p, R.LeafPrefix p ∧
    p ++ F.leaves.frame (F.leaves.treeKey H k) = F.header l ++ F.leaves.frame (F.treeKey H l)

/-- No leaf of the tree can be read as one with another key. -/
def Readable (R : Rules) (T : BinTree E N L) : Prop :=
  ∀ l ∈ T.leaves, ∀ k, F.Shows H R l k → F.leaves.treeKey H k = F.treeKey H l

/-- Two leaves without a leaf between them, or an outermost one, can be read as enclosing the
key. -/
def Encloses (R : Rules) (T : BinTree E N L) (key : Bytes) : Prop :=
  ∃ left right, T.Gap left right ∧
    (∀ ds ∈ left, ∃ l k, T.leafAt ds = some l ∧ F.Shows H R l k ∧
      F.leaves.treeKey H k < F.leaves.treeKey H key) ∧
    (∀ ds ∈ right, ∃ l k, T.leafAt ds = some l ∧ F.Shows H R l k ∧
      F.leaves.treeKey H key < F.leaves.treeKey H k)

/-- On trees of the format, the rules accept only cuts that leave out one child. -/
structure Matches (R : Rules) : Prop where
  leaves_eq : R.leaves = F.leaves
  length_between : ∀ n, (F.between n).length + 32 = R.slots.child
  leafHead_header : ∀ l, LeafHead (F.header l)
  innerHead_before : ∀ n, InnerHead (F.before n)
  eq_of_fill_eq_node : ∀ {layer c child n l r}, R.InnerCut layer c → child.length = 32 →
    l.length = 32 → r.length = 32 → c.fill child = (F.nodes H).node n l r →
      (c = (F.nodes H).leftCut n r ∧ child = l) ∨ (c = (F.nodes H).rightCut n l ∧ child = r)

variable {F H} {R : Rules} {T : BinTree E N L} {S : Set Bytes} {o : Opening}

theorem image_mem_strings {q : Bytes} (h : q ∈ (F.nodes H).images H.sha T) :
    q ∈ F.strings H T := by
  simp [strings, hashed, h]

theorem value_mem_strings {l : L} (h : l ∈ T.leaves) : F.value l ∈ F.strings H T := by
  simp only [strings, hashed, Set.mem_ofPred_eq, List.mem_append]
  exact .inl (.inr (List.mem_map_of_mem h))

theorem key_mem_strings {l : L} (h : l ∈ T.leaves) (hk : F.leaves.hashedKeys) :
    F.key l ∈ F.strings H T := by
  simp only [strings, hashed, hk, if_true, Set.mem_ofPred_eq, List.mem_append]
  exact .inr (List.mem_map_of_mem h)

/-- In a sorted tree whose leaves can be read in one way only, an enclosed key is the key of no
leaf. -/
theorem not_mem_of_encloses (hread : F.Readable H R T) (sorted : F.Sorted H T) {key : Bytes}
    (h : F.Encloses H R T key) : ∀ l ∈ T.leaves, F.key l ≠ key := by
  obtain ⟨left, right, gap, hleft, hright⟩ := h
  intro x hx hkey
  refine gap.not_mem sorted (k := F.leaves.treeKey H key) ?_ ?_ hx ?_
  · intro d hd
    obtain ⟨l, k, hl, hshows, hlt⟩ := hleft d hd
    exact ⟨l, hl, hread l (BinTree.mem_leaves_of_leafAt hl) k hshows ▸ hlt⟩
  · intro d hd
    obtain ⟨l, k, hl, hshows, hlt⟩ := hright d hd
    exact ⟨l, hl, hread l (BinTree.mem_leaves_of_leafAt hl) k hshows ▸ hlt⟩
  · rw [← hkey]
    rfl

namespace Matches

variable (M : F.Matches H R)

include M

theorem discipline :
    (F.nodes H).Discipline 32 LeafHead (fun c => ∃ layer, R.InnerCut layer c) where
  leaf_ne_node {m n l r} hm _ _ := by
    refine hm.ne_of_innerHead ?_
    unfold NodeFormat.node
    rw [List.append_assoc, List.append_assoc]
    exact (M.innerHead_before n).append _
  fill_ne_leaf {c child l} hc _ := by
    obtain ⟨layer, hc⟩ := hc
    refine (LeafHead.ne_of_innerHead ?_ ?_).symm
    · show LeafHead (F.header l ++ _ ++ _)
      rw [List.append_assoc]
      exact (M.leafHead_header l).append _
    · unfold Cut.fill
      rw [List.append_assoc]
      exact hc.2.1.append _
  eq_of_fill_eq_node hc hchild hl hr h := by
    obtain ⟨layer, hc⟩ := hc
    exact M.eq_of_fill_eq_node hc hchild hl hr h

/-! ### Soundness -/

section Sound

variable (inj : Set.InjOn H.sha S) (fresh : ∀ m ∈ S, ∀ e, H.sha m ≠ F.blank e)
  (hT : F.strings H T ⊆ S)

include inj fresh hT

/-- A valid opening follows the path of a leaf and starts from its message. -/
theorem leafAt_of_valid (h : o.Valid R H S (F.root H T)) :
    ∃ ds l, T.leafAt ds = some l ∧ o.cuts = (F.nodes H).cuts H.sha T ds ∧
      o.message R H = (F.nodes H).leaf l :=
  M.discipline.descend H.length_sha F.length_blank inj fresh (fun _ hq => hT (image_mem_strings hq))
    h.leafHead_message h.message_mem (fun _ hc => h.cutsOk.innerCut hc) h.climb_mem h.root_eq

/-- The same, with what the message gives away of the leaf. -/
theorem shows_of_valid (h : o.Valid R H S (F.root H T)) :
    ∃ ds l, T.leafAt ds = some l ∧ o.cuts = (F.nodes H).cuts H.sha T ds ∧
      F.Shows H R l o.key ∧ F.value l = o.value := by
  obtain ⟨ds, l, hl, hcuts, hmsg⟩ := M.leafAt_of_valid inj fresh hT h
  unfold Opening.message at hmsg
  rw [M.leaves_eq] at hmsg
  obtain ⟨hkey, hsha⟩ := LeafFormat.message_eq_iff.1 hmsg
  have hvalue : F.value l = o.value :=
    inj (hT (value_mem_strings (BinTree.mem_leaves_of_leafAt hl))) h.value_mem hsha.symm
  refine ⟨ds, l, hl, hcuts, ⟨h.key_ne, ?_, o.prefix_, h.leafPrefix, hkey⟩, hvalue⟩
  rw [hvalue]
  exact h.value_ne

/-- A valid opening shows a leaf of the tree. -/
theorem mem_of_valid (hread : F.Readable H R T) (h : o.Valid R H S (F.root H T)) :
    ∃ l ∈ T.leaves, F.key l = o.key ∧ F.value l = o.value := by
  obtain ⟨ds, l, hl, -, hshows, hvalue⟩ := M.shows_of_valid inj fresh hT h
  have hmem := BinTree.mem_leaves_of_leafAt hl
  refine ⟨l, hmem, ?_, hvalue⟩
  have hkey := hread l hmem o.key hshows
  have hkey_mem := h.key_mem
  unfold treeKey LeafFormat.treeKey at hkey
  rw [M.leaves_eq] at hkey_mem
  split_ifs at hkey with hf
  · exact (inj (hkey_mem hf) (hT (key_mem_strings hmem hf)) hkey).symm
  · exact hkey.symm

/-- Only keys enclosed by two neighbouring leaves are refuted. -/
theorem encloses_of_refutes (empty : R.slots.EmptySound (F.nodes H) H.sha T) {key : Bytes}
    {left right : Option Opening} (h : Refutes R H S (F.root H T) key left right) :
    F.Encloses H R T key := by
  -- the openings on both sides are openings of leaves, at the ends of some paths
  have side : ∀ x : Option Opening, (∀ o ∈ x, o.Valid R H S (F.root H T)) →
      ∃ y : Option (List Side), x.map Opening.cuts = y.map ((F.nodes H).cuts H.sha T) ∧
        ∀ ds ∈ y, ∃ o ∈ x, ∃ l, T.leafAt ds = some l ∧ F.Shows H R l o.key := by
    intro x hx
    cases x with
    | none => exact ⟨none, rfl, by simp⟩
    | some o =>
      obtain ⟨ds, l, hl, hcuts, hshows, -⟩ := M.shows_of_valid inj fresh hT (hx o rfl)
      refine ⟨some ds, congrArg some hcuts, fun ds' hds' => ?_⟩
      rw [← Option.some.inj hds']
      exact ⟨o, rfl, l, hl, hshows⟩
  obtain ⟨ds, hds, hleft⟩ := side left h.left_valid
  obtain ⟨es, hes, hright⟩ := side right h.right_valid
  have hgap := h.gap
  rw [hds, hes] at hgap
  have gap := Slots.gap_of_gapCuts H.length_sha F.length_blank M.length_between empty
    (fun d hd => let ⟨_, _, l, hl, _⟩ := hleft d hd; ⟨l, hl⟩)
    (fun d hd => let ⟨_, _, l, hl, _⟩ := hright d hd; ⟨l, hl⟩) hgap
  refine ⟨ds, es, gap, fun d hd => ?_, fun d hd => ?_⟩
  · obtain ⟨o, ho, l, hl, hshows⟩ := hleft d hd
    exact ⟨l, o.key, hl, hshows, M.leaves_eq ▸ h.left_lt o ho⟩
  · obtain ⟨o, ho, l, hl, hshows⟩ := hright d hd
    exact ⟨l, o.key, hl, hshows, M.leaves_eq ▸ h.lt_right o ho⟩

end Sound

/-! ### Completeness -/

/-- Reading a leaf with an accepted prefix gives a valid opening, if the cuts are accepted. -/
theorem valid_reading (hT : F.strings H T ⊆ S) {p : List Side × L} {prefix_ key : Bytes}
    (hp : T.leafAt p.1 = some p.2) (key_ne : key ≠ []) (value_ne : F.value p.2 ≠ [])
    (leafPrefix : R.LeafPrefix prefix_) (key_mem : F.leaves.hashedKeys → key ∈ S)
    (hread : prefix_ ++ F.leaves.frame (F.leaves.treeKey H key) =
      F.header p.2 ++ F.leaves.frame (F.treeKey H p.2))
    (cutsOk : R.CutsOk 1 ((F.nodes H).cuts H.sha T p.1)) :
    (F.reading H T p prefix_ key).Valid R H S (F.root H T) := by
  have hmem := BinTree.mem_leaves_of_leafAt hp
  have hmsg : (F.reading H T p prefix_ key).message R H = (F.nodes H).leaf p.2 := by
    unfold Opening.message
    rw [M.leaves_eq]
    exact LeafFormat.message_eq_iff.2 ⟨hread, rfl⟩
  refine ⟨key_ne, value_ne, leafPrefix, cutsOk, ?_, hT (value_mem_strings hmem), ?_, ?_, ?_⟩
  · rw [M.leaves_eq]
    exact key_mem
  · rw [hmsg]
    exact hT (image_mem_strings (NodeFormat.leaf_mem_images hp))
  · rw [hmsg]
    exact fun q hq => hT (image_mem_strings (NodeFormat.climbImages_cuts hp hq))
  · rw [hmsg]
    exact NodeFormat.climb_cuts hp

/-- The honest opening of a leaf is valid if the rules accept its prefix and its cuts. -/
theorem valid_opening (hT : F.strings H T ⊆ S) {p : List Side × L}
    (hp : T.leafAt p.1 = some p.2) (key_ne : F.key p.2 ≠ []) (value_ne : F.value p.2 ≠ [])
    (leafPrefix : R.LeafPrefix (F.header p.2))
    (cutsOk : R.CutsOk 1 ((F.nodes H).cuts H.sha T p.1)) :
    (F.opening H T p).Valid R H S (F.root H T) :=
  M.valid_reading hT hp key_ne value_ne leafPrefix
    (fun hf => hT (key_mem_strings (BinTree.mem_leaves_of_leafAt hp) hf)) rfl cutsOk

/-- Every enclosed key is refuted, if all cuts of the tree are accepted. -/
theorem refutes_of_encloses (hT : F.strings H T ⊆ S) (fits : R.slots.Fits (F.nodes H) H.sha T)
    (cutsOk : ∀ ds, R.CutsOk 1 ((F.nodes H).cuts H.sha T ds)) (plain : F.leaves.hashedKeys = false)
    {key : Bytes} (h : F.Encloses H R T key) :
    ∃ left right, Refutes R H S (F.root H T) key left right := by
  obtain ⟨left, right, gap, hleft, hright⟩ := h
  have hgap := Slots.gapCuts_of_gap H.length_sha F.length_blank M.length_between fits gap
  have side : ∀ (x : Option (List Side)) (q : Bytes → Prop),
      (∀ ds ∈ x, ∃ l k, T.leafAt ds = some l ∧ F.Shows H R l k ∧ q k) →
      ∃ y : Option Opening, y.map Opening.cuts = x.map ((F.nodes H).cuts H.sha T) ∧
        ∀ o ∈ y, o.Valid R H S (F.root H T) ∧ q o.key := by
    intro x q hx
    cases x with
    | none => exact ⟨none, rfl, by simp⟩
    | some ds =>
      obtain ⟨l, k, hl, ⟨hk, hv, p, hp, hread⟩, hq⟩ := hx ds rfl
      refine ⟨some (F.reading H T (ds, l) p k), rfl, fun o ho => ?_⟩
      obtain rfl := Option.some.inj ho
      refine ⟨M.valid_reading hT hl hk hv hp (fun hf => ?_) hread (cutsOk ds), hq⟩
      rw [plain] at hf
      contradiction
  obtain ⟨l, hl, hlvalid⟩ := side left _ hleft
  obtain ⟨r, hr, hrvalid⟩ := side right _ hright
  rw [← hl, ← hr] at hgap
  rw [← M.leaves_eq] at plain hlvalid hrvalid
  refine ⟨l, r, fun o ho => (hlvalid o ho).1, fun o ho => (hlvalid o ho).2,
    fun o ho => (hrvalid o ho).1, fun o ho => (hrvalid o ho).2, fun hf => ?_, hgap⟩
  rw [plain] at hf
  contradiction

/-- The honest openings of the nearest leaves below and above an absent key refute it. -/
theorem refutes_nearest (sorted : F.Sorted H T) (nonempty : T.leaves ≠ [])
    (fits : R.slots.Fits (F.nodes H) H.sha T)
    (valid : ∀ p : List Side × L, T.leafAt p.1 = some p.2 →
      (F.opening H T p).Valid R H S (F.root H T))
    {key : Bytes} (key_mem : R.leaves.hashedKeys → key ∈ S)
    (absent : ∀ l ∈ T.leaves, F.treeKey H l ≠ F.leaves.treeKey H key) :
    Refutes R H S (F.root H T) key
      ((T.nearestBelow (F.treeKey H) (F.leaves.treeKey H key)).map (F.opening H T))
      ((T.nearestAbove (F.treeKey H) (F.leaves.treeKey H key)).map (F.opening H T)) := by
  have gap := BinTree.gap_nearest sorted nonempty absent
  rw [← M.leaves_eq] at gap ⊢
  refine ⟨?_, ?_, ?_, ?_, key_mem, ?_⟩
  · rw [Option.forall_mem_map]
    exact fun p hp => valid p (BinTree.nearestBelow_spec hp).1
  · rw [Option.forall_mem_map]
    intro p hp
    have := (BinTree.nearestBelow_spec hp).2
    unfold treeKey at this
    rwa [← M.leaves_eq] at this
  · rw [Option.forall_mem_map]
    exact fun p hp => valid p (BinTree.nearestAbove_spec hp).1
  · rw [Option.forall_mem_map]
    intro p hp
    have := (BinTree.nearestAbove_spec hp).2
    unfold treeKey at this
    rwa [← M.leaves_eq] at this
  · have := Slots.gapCuts_of_gap H.length_sha F.length_blank M.length_between fits gap
    simpa [Option.map_map, Function.comp_def, opening, reading] using this

end Matches

end TreeFormat

end Ics23
