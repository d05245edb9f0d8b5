import Ics23.Hashes
import Ics23.Slots

/-!
# Openings and refutations

What a verifier for trees with two children decides, free of messages, operation codes and loops.
`Rules` say how leaves are hashed, which leaf prefixes and cuts are accepted and where the child
slots are.  An `Opening` claims one leaf of a tree; it is `Valid` for a root if it follows the rules
and climbs to the root.  Two openings, of which one may be missing, are a refutation of a key
(`Refutes`) if they are valid, enclose the key and leave no gap for it.

The two implementations are shown to compute these notions, and the theorems about trees are proved
for them.  `S` always stands for a set of strings that holds everything hashed.

* `Opening.Valid.eq_of_diverge_eq_none`: without a collision, a valid path is no tail of another one
  to the same root, whatever this root is;
* `Opening.Valid.diverge_ne_none`: where leaves can be read in one way only, the paths on both sides
  of a key part.
-/

namespace Ics23

/-! ## Leaf messages -/

/-- How keys and values enter the message of a leaf. -/
structure LeafFormat where
  /-- Keys are hashed first, and compared by their hash. -/
  hashedKeys : Bool
  /-- The length of the key and of the value is put before it. -/
  lengths : Bool

namespace LeafFormat

variable (f : LeafFormat) (H : HostFunctionsProvider)

/-- A key as it is compared and put into the leaf. -/
def treeKey (key : Bytes) : Bytes := if f.hashedKeys then H.sha key else key

def frame (data : Bytes) : Bytes :=
  if f.lengths then Leb128.encode data.length ++ data else data

/-- The message of a leaf.  Values are always hashed. -/
def message (prefix_ key value : Bytes) : Bytes :=
  prefix_ ++ f.frame (f.treeKey H key) ++ f.frame (H.sha value)

variable {f H}

theorem length_frame_sha (v : Bytes) :
    (f.frame (H.sha v)).length = (f.frame (H.sha [])).length := by
  unfold frame
  split_ifs <;> simp

theorem frame_inj {d d' : Bytes} (h : f.frame d = f.frame d') : d = d' := by
  unfold frame at h
  split_ifs at h
  · exact (Leb128.encode_append_inj h).2
  · exact h

/-- The message gives away the hash of the value, but only the prefix and the key together. -/
theorem message_eq_iff {p p' k k' v v' : Bytes} :
    f.message H p k v = f.message H p' k' v' ↔
      p ++ f.frame (f.treeKey H k) = p' ++ f.frame (f.treeKey H k') ∧ H.sha v = H.sha v' := by
  constructor
  · intro h
    have hlen : (f.frame (H.sha v)).length = (f.frame (H.sha v')).length := by
      rw [length_frame_sha, length_frame_sha v']
    obtain ⟨hkey, hvalue⟩ := List.append_inj' h hlen
    exact ⟨hkey, frame_inj hvalue⟩
  · rintro ⟨hkey, hvalue⟩
    unfold message
    rw [hkey, hvalue]

end LeafFormat

/-! ## Leaf and inner heads -/

/-- The string begins like the message of a leaf. -/
def LeafHead (b : Bytes) : Prop := b.head? = some 0

/-- The string is not empty and does not begin like the message of a leaf. -/
def InnerHead (b : Bytes) : Prop := b ≠ [] ∧ b.head? ≠ some 0

theorem LeafHead.append {b : Bytes} (h : LeafHead b) (t : Bytes) : LeafHead (b ++ t) := by
  unfold LeafHead at *
  rw [List.head?_append, h, Option.some_or]

theorem InnerHead.append {b : Bytes} (h : InnerHead b) (t : Bytes) : InnerHead (b ++ t) := by
  obtain ⟨x, b, rfl⟩ := List.exists_cons_of_ne_nil h.1
  exact ⟨by simp, by simpa using h.2⟩

theorem LeafHead.ne_of_innerHead {a b : Bytes} (ha : LeafHead a) (hb : InnerHead b) : a ≠ b := by
  rintro rfl
  exact hb.2 ha

theorem leafHead_iff {b : Bytes} : LeafHead b ↔ [0] <+: b := by
  cases b <;> simp [LeafHead, List.cons_prefix_cons, eq_comm]

theorem innerHead_iff {b : Bytes} : InnerHead b ↔ b ≠ [] ∧ ¬ [0] <+: b := by
  rw [InnerHead, ← leafHead_iff, LeafHead]

/-! ## The rules of a verifier -/

/-- The conditions on leaf prefixes and inner cuts. -/
structure Rules where
  slots : Slots
  leaves : LeafFormat
  /-- What a leaf prefix has to be besides the beginning of a leaf. -/
  leafHeader : Bytes → Prop
  /-- What the prefix of an inner node has to be at a layer, the lowest inner nodes being layer 1,
  besides being no beginning of a leaf and not too long or too short for the slots. -/
  innerHeader : ℕ → Bytes → Prop

namespace Rules

variable (R : Rules)

def LeafPrefix (p : Bytes) : Prop := R.leafHeader p ∧ LeafHead p

def InnerCut (layer : ℕ) (c : Cut) : Prop :=
  R.innerHeader layer c.1 ∧ InnerHead c.1 ∧ R.slots.lo ≤ c.1.length ∧
    c.1.length ≤ R.slots.hi + R.slots.child ∧ c.2.length % R.slots.child = 0

/-- The message of a leaf can be cut in one way only, as far as accepted prefixes go. -/
def Readable (H : HostFunctionsProvider) : Prop :=
  ∀ {p p' k k'}, R.LeafPrefix p → R.LeafPrefix p' →
    p ++ R.leaves.frame (R.leaves.treeKey H k) = p' ++ R.leaves.frame (R.leaves.treeKey H k') →
      R.leaves.treeKey H k = R.leaves.treeKey H k'

/-- All cuts of a path are accepted, the first one being at the given layer. -/
def CutsOk : ℕ → List Cut → Prop
  | _, [] => True
  | layer, c :: cs => R.InnerCut layer c ∧ CutsOk (layer + 1) cs

variable {R}

theorem cutsOk_append {layer : ℕ} {cs cs' : List Cut} :
    R.CutsOk layer (cs ++ cs') ↔ R.CutsOk layer cs ∧ R.CutsOk (layer + cs.length) cs' := by
  induction cs generalizing layer with
  | nil => simp [CutsOk]
  | cons c cs ih =>
    simp only [List.cons_append, CutsOk, ih, and_assoc, List.length_cons, Nat.add_assoc,
      Nat.add_comm 1]

theorem CutsOk.innerCut {layer : ℕ} {cs : List Cut} (h : R.CutsOk layer cs) {c : Cut}
    (hc : c ∈ cs) : ∃ i, R.InnerCut i c := by
  induction cs generalizing layer with
  | nil => simp at hc
  | cons c' cs ih =>
    rcases List.mem_cons.1 hc with rfl | hc
    · exact ⟨layer, h.1⟩
    · exact ih h.2 hc

/-- If a string is cut in two ways, with at most one child's slot after the cut, then one cut leaves
out the left child and the other the right child. -/
theorem InnerCut.placed {i j : ℕ} {a b : Cut} {x y : Bytes} (ha : R.InnerCut i a)
    (hb : R.InnerCut j b) (hne : a ≠ b) (hx : x.length = 32) (hy : y.length = 32)
    (h : a.fill x = b.fill y) (hlast : a.2.length ≤ R.slots.child)
    (hlast' : b.2.length ≤ R.slots.child) : R.slots.Placed a ∧ R.slots.Placed b := by
  obtain ⟨-, -, hmin, hmax, hmod⟩ := ha
  obtain ⟨-, -, hmin', hmax', hmod'⟩ := hb
  have hchild := R.slots.child_le
  have hcases {n : ℕ} (hn : n ≤ R.slots.child) (hmod : n % R.slots.child = 0) :
      n = 0 ∨ n = R.slots.child := by
    rcases Nat.lt_or_ge n R.slots.child with hlt | hge
    · exact .inl ((Nat.mod_eq_of_lt hlt).symm.trans hmod)
    · exact .inr (by omega)
  have hlen := congrArg List.length h
  simp only [Cut.fill, List.length_append, hx, hy] at hlen
  by_cases hsame : a.2.length = b.2.length
  · obtain ⟨hfirst, hsuffix⟩ := List.append_inj' h hsame
    obtain ⟨hpre, -⟩ := List.append_inj' hfirst (hx.trans hy.symm)
    exact absurd (Prod.ext hpre hsuffix) hne
  · unfold Slots.Placed Slots.IsLeft Slots.IsRight
    rcases hcases hlast hmod with h0 | h0
    · rcases hcases hlast' hmod' with h1 | h1
      · omega
      · exact ⟨.inr ⟨by omega, by omega, h0⟩, .inl ⟨by omega, by omega, h1⟩⟩
    · rcases hcases hlast' hmod' with h1 | h1
      · exact ⟨.inl ⟨by omega, by omega, h0⟩, .inr ⟨by omega, by omega, h1⟩⟩
      · omega

end Rules

/-! ## Openings -/

/-- A claim that a tree has a leaf: its key and value, how its message begins, and the cuts from the
leaf up to the root. -/
structure Opening where
  prefix_ : Bytes
  key : Bytes
  value : Bytes
  cuts : List Cut

namespace Opening

variable (R : Rules) (H : HostFunctionsProvider) (S : Set Bytes)

def message (o : Opening) : Bytes := R.leaves.message H o.prefix_ o.key o.value

/-- The opening follows the rules and climbs to the root, all strings hashed lying in `S`. -/
structure Valid (root : Bytes) (o : Opening) : Prop where
  key_ne : o.key ≠ []
  value_ne : o.value ≠ []
  leafPrefix : R.LeafPrefix o.prefix_
  cutsOk : R.CutsOk 1 o.cuts
  key_mem : R.leaves.hashedKeys → o.key ∈ S
  value_mem : o.value ∈ S
  message_mem : o.message R H ∈ S
  climb_mem : ∀ q ∈ climbImages H.sha (H.sha (o.message R H)) o.cuts, q ∈ S
  root_eq : climb H.sha (H.sha (o.message R H)) o.cuts = root

variable {R H S} {root : Bytes} {o o' : Opening}

theorem Valid.leafHead_message (h : o.Valid R H S root) : LeafHead (o.message R H) := by
  unfold message LeafFormat.message
  rw [List.append_assoc]
  exact h.leafPrefix.2.append _

theorem Valid.innerHead_fill (h : o.Valid R H S root) {c : Cut} (hc : c ∈ o.cuts) (x : Bytes) :
    InnerHead (c.fill x) := by
  obtain ⟨i, hi⟩ := h.cutsOk.innerCut hc
  unfold Cut.fill
  rw [List.append_assoc]
  exact hi.2.1.append _

/-- A path that is a tail of another one to the same root is all of it, and starts from the same
leaf message. -/
theorem Valid.eq_of_suffix (inj : Set.InjOn H.sha S) (h : o.Valid R H S root)
    (h' : o'.Valid R H S root) (hs : o'.cuts <:+ o.cuts) :
    o.cuts = o'.cuts ∧ o.message R H = o'.message R H := by
  obtain ⟨t, ht⟩ := hs
  have leaf_ne : ∀ c ∈ t, ∀ x, o'.message R H ≠ c.fill x := fun c hc x =>
    h'.leafHead_message.ne_of_innerHead
      (h.innerHead_fill (by rw [← ht]; exact List.mem_append_left _ hc) x)
  have hclimb := h.climb_mem
  have hroot := h.root_eq
  rw [← ht] at hclimb hroot
  obtain ⟨rfl, hm⟩ := eq_of_climb_tail inj leaf_ne h.message_mem h'.message_mem hclimb
    h'.climb_mem (hroot.trans h'.root_eq.symm)
  exact ⟨ht.symm, hm⟩

/-- Two valid paths to one root part, unless they are the same path from the same leaf message. -/
theorem Valid.eq_of_diverge_eq_none (inj : Set.InjOn H.sha S) (h : o.Valid R H S root)
    (h' : o'.Valid R H S root) (hd : diverge o.cuts.reverse o'.cuts.reverse = none) :
    o.cuts = o'.cuts ∧ o.message R H = o'.message R H := by
  rw [diverge_eq_none_iff, List.reverse_prefix, List.reverse_prefix] at hd
  rcases hd with hd | hd
  · obtain ⟨hcuts, hmsg⟩ := h'.eq_of_suffix inj h hd
    exact ⟨hcuts.symm, hmsg.symm⟩
  · exact h.eq_of_suffix inj h' hd

/-- Where two valid paths to one root part, both steps prove some child, unless there are several
slots after one of them. -/
theorem Valid.placed_of_diverge (inj : Set.InjOn H.sha S) (h : o.Valid R H S root)
    (h' : o'.Valid R H S root) {a b : Cut} {l r : List Cut}
    (hd : diverge o.cuts.reverse o'.cuts.reverse = some (a, b, l, r))
    (ha : a.2.length ≤ R.slots.child) (hb : b.2.length ≤ R.slots.child) :
    R.slots.Placed a ∧ R.slots.Placed b := by
  have hfill := fill_eq_of_diverge inj hd h.climb_mem h'.climb_mem (h.root_eq.trans h'.root_eq.symm)
  obtain ⟨t, hcuts, hcuts', hne⟩ := diverge_eq_some hd
  have hmem : a ∈ o.cuts := by
    rw [← List.mem_reverse, hcuts]
    simp
  have hmem' : b ∈ o'.cuts := by
    rw [← List.mem_reverse, hcuts']
    simp
  obtain ⟨i, hi⟩ := h.cutsOk.innerCut hmem
  obtain ⟨j, hj⟩ := h'.cutsOk.innerCut hmem'
  exact hi.placed hj hne (length_climb H.length_sha (H.length_sha _) _)
    (length_climb H.length_sha (H.length_sha _) _) hfill ha hb

/-- Valid openings of one root on both sides of a key have paths that part. -/
theorem Valid.diverge_ne_none (hread : R.Readable H) (inj : Set.InjOn H.sha S)
    (h : o.Valid R H S root) (h' : o'.Valid R H S root) {key : Bytes}
    (hlt : R.leaves.treeKey H o.key < R.leaves.treeKey H key)
    (hgt : R.leaves.treeKey H key < R.leaves.treeKey H o'.key) :
    diverge o.cuts.reverse o'.cuts.reverse ≠ none := by
  intro hd
  have hmsg := (h.eq_of_diverge_eq_none inj h' hd).2
  have hkey := hread h.leafPrefix h'.leafPrefix (LeafFormat.message_eq_iff.1 hmsg).1
  rw [hkey] at hlt
  exact Std.lt_irrefl (Std.lt_trans hlt hgt)

end Opening

/-! ## Refutations -/

/-- Valid openings on both sides of the key, or on one, with no gap for the key. -/
structure Refutes (R : Rules) (H : HostFunctionsProvider) (S : Set Bytes) (root key : Bytes)
    (left right : Option Opening) : Prop where
  left_valid : ∀ o ∈ left, o.Valid R H S root
  left_lt : ∀ o ∈ left, R.leaves.treeKey H o.key < R.leaves.treeKey H key
  right_valid : ∀ o ∈ right, o.Valid R H S root
  lt_right : ∀ o ∈ right, R.leaves.treeKey H key < R.leaves.treeKey H o.key
  key_mem : R.leaves.hashedKeys → key ∈ S
  gap : R.slots.GapCuts (left.map Opening.cuts) (right.map Opening.cuts)

end Ics23
