import Ics23.Lib.MerkleTree

/-!
# Child slots of binary nodes

What the neighbour checks of both verifiers decide for specs with two children, said on cuts alone:
an inner step proves a left child if its prefix is bare and its suffix holds one slot, a right
child if its prefix holds one slot more and its suffix nothing (`IsLeft`, `IsRight`); a path is
left-most if every step proves a left child or a right child with an empty left sibling; two paths
are neighbours if they part to the left and to the right, the first going on right-most and the
second left-most.

On the honest cuts of a tree these are statements about its shape:

* `gap_of_gapCuts`: the check accepts only gaps of the tree, if what looks like an empty child has
  no leaf;
* `gapCuts_of_gap`: it accepts all of them, if headers have an admissible length and children
  without a leaf look empty.
-/

namespace Ics23

/-- The sizes of a binary node: `child` bytes for each child, `lo` to `hi` bytes before them. -/
structure Slots where
  child : ℕ
  lo : ℕ
  hi : ℕ
  /-- The content of the slot of an empty child. -/
  empty : Bytes
  child_le : 32 ≤ child
  lo_pos : 1 ≤ lo
  lo_le_hi : lo ≤ hi
  hi_lt : hi < lo + child
  fits : hi + child < 2 ^ 31

namespace Slots

variable (w : Slots)

/-- The cut proves a left child. -/
def IsLeft (c : Cut) : Prop := w.lo ≤ c.1.length ∧ c.1.length ≤ w.hi ∧ c.2.length = w.child

/-- The cut proves a right child. -/
def IsRight (c : Cut) : Prop :=
  w.child + w.lo ≤ c.1.length ∧ c.1.length ≤ w.child + w.hi ∧ c.2.length = 0

instance (c : Cut) : Decidable (w.IsLeft c) := inferInstanceAs (Decidable (_ ∧ _))

instance (c : Cut) : Decidable (w.IsRight c) := inferInstanceAs (Decidable (_ ∧ _))

/-- The cut proves one of the children. -/
def Placed (c : Cut) : Prop := w.IsLeft c ∨ w.IsRight c

/-- Every step proves a left child, or a right child whose left sibling is empty. -/
def LeftMost (cs : List Cut) : Prop :=
  ∀ c ∈ cs, w.IsLeft c ∨ (w.IsRight c ∧ w.empty = c.1.drop (c.1.length - w.child))

/-- Every step proves a right child, or a left child whose right sibling is empty. -/
def RightMost (cs : List Cut) : Prop :=
  ∀ c ∈ cs, w.IsRight c ∨ (w.IsLeft c ∧ w.empty = c.2)

/-- Seen from the root, the paths part to the left and to the right, and go on right-most and
left-most. -/
def LeftNeighbor (l r : List Cut) : Prop :=
  ∃ a b l' r', diverge l.reverse r.reverse = some (a, b, l', r') ∧
    w.IsLeft a ∧ w.IsRight b ∧ w.RightMost l' ∧ w.LeftMost r'

/-- Seen from the root, the paths part, at steps that both prove some child. -/
def PartPlaced (l r : List Cut) : Prop :=
  ∃ a b l' r', diverge l.reverse r.reverse = some (a, b, l', r') ∧ w.Placed a ∧ w.Placed b

/-- The check made for the given sides of a non-existence proof. -/
def GapCuts : Option (List Cut) → Option (List Cut) → Prop
  | some l, some r => w.LeftNeighbor l r
  | some l, none => w.RightMost l
  | none, some r => w.LeftMost r
  | none, none => False

variable {w}

theorem IsLeft.not_isRight {c : Cut} (h : w.IsLeft c) : ¬ w.IsRight c := by
  intro h'
  have := w.child_le
  have := h.2.2
  have := h'.2.2
  omega

/-- At most one slot follows a child. -/
theorem Placed.length_le {c : Cut} (h : w.Placed c) : c.2.length ≤ w.child := by
  rcases h with h | h
  · exact h.2.2.le
  · exact h.2.2.le.trans (Nat.zero_le _)

theorem leftMost_append {l r : List Cut} :
    w.LeftMost (l ++ r) ↔ w.LeftMost l ∧ w.LeftMost r := by
  simp only [LeftMost, List.mem_append, or_imp, forall_and]

theorem rightMost_append {l r : List Cut} :
    w.RightMost (l ++ r) ↔ w.RightMost l ∧ w.RightMost r := by
  simp only [RightMost, List.mem_append, or_imp, forall_and]

theorem leftMost_reverse {l : List Cut} : w.LeftMost l.reverse ↔ w.LeftMost l := by
  simp only [LeftMost, List.mem_reverse]

theorem rightMost_reverse {l : List Cut} : w.RightMost l.reverse ↔ w.RightMost l := by
  simp only [RightMost, List.mem_reverse]

theorem leftNeighbor_nil_left {r : List Cut} : ¬ w.LeftNeighbor [] r := by
  rintro ⟨a, b, l', r', h, -⟩
  simp [diverge] at h

/-- The last steps, which are next to the root, are the same and the rest are neighbours, or they
are where the paths part. -/
theorem leftNeighbor_concat {l r : List Cut} {a b : Cut} :
    w.LeftNeighbor (l ++ [a]) (r ++ [b]) ↔
      (a = b ∧ w.LeftNeighbor l r) ∨
        (w.IsLeft a ∧ w.IsRight b ∧ w.RightMost l ∧ w.LeftMost r) := by
  unfold LeftNeighbor
  simp only [List.reverse_append, List.reverse_cons, List.reverse_nil, List.nil_append,
    List.singleton_append, diverge]
  by_cases hab : a = b
  · subst hab
    have hpart : ¬ (w.IsLeft a ∧ w.IsRight a ∧ w.RightMost l ∧ w.LeftMost r) := by
      rintro ⟨ha, ha', -⟩
      exact ha.not_isRight ha'
    simp only [if_true, true_and, hpart, or_false]
  · rw [if_neg hab]
    constructor
    · rintro ⟨a', b', l', r', h, ha, hb, hl, hr⟩
      simp only [Option.some.injEq, Prod.mk.injEq] at h
      obtain ⟨rfl, rfl, rfl, rfl⟩ := h
      exact .inr ⟨ha, hb, rightMost_reverse.1 hl, leftMost_reverse.1 hr⟩
    · rintro (⟨h, -⟩ | ⟨ha, hb, hl, hr⟩)
      · exact absurd h hab
      · exact ⟨a, b, _, _, rfl, ha, hb, rightMost_reverse.2 hl, leftMost_reverse.2 hr⟩

/-! ## Honest cuts -/

section Honest

variable {E N L : Type} {F : NodeFormat E N L} {hash : Bytes → Bytes}

theorem not_isLeft_rightCut (n : N) (x : Bytes) : ¬ w.IsLeft (F.rightCut n x) := by
  intro h
  have hlen : ([] : Bytes).length = w.child := h.2.2
  have := w.child_le
  rw [List.length_nil] at hlen
  omega

variable (hlen : ∀ m, (hash m).length = 32) (blank_len : ∀ e, (F.blank e).length = 32)

include hlen blank_len

theorem not_isRight_leftCut (n : N) (T : BinTree E N L) :
    ¬ w.IsRight (F.leftCut n (F.digest hash T)) := by
  intro h
  have := h.2.2
  simp only [NodeFormat.leftCut, List.length_append,
    NodeFormat.length_digest hlen blank_len] at this
  omega

theorem leftCut_ne_rightCut (n : N) (T T' : BinTree E N L) :
    F.leftCut n (F.digest hash T) ≠ F.rightCut n (F.digest hash T') := by
  intro h
  have := congrArg (fun c : Cut => c.2.length) h
  simp only [NodeFormat.leftCut, NodeFormat.rightCut, List.length_append, List.length_nil,
    NodeFormat.length_digest hlen blank_len] at this
  omega

variable (between_len : ∀ n, (F.between n).length + 32 = w.child)

include between_len

theorem isLeft_leftCut {n : N} (h : w.lo ≤ (F.before n).length ∧ (F.before n).length ≤ w.hi)
    (T : BinTree E N L) : w.IsLeft (F.leftCut n (F.digest hash T)) := by
  have hd := NodeFormat.length_digest hlen blank_len T
  have hb := between_len n
  refine ⟨h.1, h.2, ?_⟩
  simp only [NodeFormat.leftCut, List.length_append]
  omega

theorem isRight_rightCut {n : N} (h : w.lo ≤ (F.before n).length ∧ (F.before n).length ≤ w.hi)
    (T : BinTree E N L) : w.IsRight (F.rightCut n (F.digest hash T)) := by
  have hd := NodeFormat.length_digest hlen blank_len T
  have hb := between_len n
  refine ⟨?_, ?_, rfl⟩ <;> simp only [NodeFormat.rightCut, List.length_append] <;> omega

theorem drop_rightCut (n : N) (T : BinTree E N L) :
    (F.rightCut n (F.digest hash T)).1.drop
      ((F.rightCut n (F.digest hash T)).1.length - w.child) =
        F.digest hash T ++ F.between n := by
  have hb := between_len n
  have hd := NodeFormat.length_digest hlen blank_len T
  have hlen : (F.before n ++ (F.digest hash T ++ F.between n)).length - w.child =
      (F.before n).length := by
    simp only [List.length_append]
    omega
  simp only [NodeFormat.rightCut, List.append_assoc, hlen, List.drop_left]

/-! ### From the check to the shape -/

section Sound

/-- Where the slot of a child reads as empty, the child has no leaf. -/
def EmptySound (w : Slots) (F : NodeFormat E N L) (hash : Bytes → Bytes) (T : BinTree E N L) :
    Prop :=
  T.AllNodes fun n a b => (w.empty = F.digest hash a ++ F.between n → a.NoLeaf) ∧
    (w.empty = F.between n ++ F.digest hash b → b.NoLeaf)

theorem firstAt_of_leftMost {T : BinTree E N L} (sound : w.EmptySound F hash T) {ds : List Side}
    {l : L} (hl : T.leafAt ds = some l) (h : w.LeftMost (F.cuts hash T ds)) : T.FirstAt ds := by
  induction T generalizing ds with
  | empty e => simp [BinTree.leafAt] at hl
  | leaf m => cases ds <;> simp_all [BinTree.leafAt, BinTree.FirstAt]
  | node n a b iha ihb =>
    rcases ds with _ | ⟨_ | _, ds⟩
    · simp [BinTree.leafAt] at hl
    · rw [NodeFormat.cuts, leftMost_append] at h
      exact iha sound.2.1 hl h.1
    · rw [NodeFormat.cuts, leftMost_append] at h
      refine ⟨?_, ihb sound.2.2 hl h.1⟩
      rcases h.2 _ (List.mem_singleton_self _) with h' | ⟨-, h'⟩
      · exact absurd h' (not_isLeft_rightCut n _)
      · rw [drop_rightCut hlen blank_len between_len] at h'
        exact sound.1.1 h'

omit between_len in
/-- No slot reads as empty if the empty child is the empty string. -/
theorem emptySound_of_empty_eq_nil (h : w.empty = []) (T : BinTree E N L) :
    w.EmptySound F hash T := by
  have hd (t : BinTree E N L) : F.digest hash t ≠ [] := by
    intro he
    have := NodeFormat.length_digest hlen blank_len t
    rw [he, List.length_nil] at this
    omega
  refine BinTree.allNodes_of_forall (fun n a b => ⟨fun he => ?_, fun he => ?_⟩) T
  · exact absurd (List.append_eq_nil_iff.1 (he.symm.trans h)).1 (hd a)
  · exact absurd (List.append_eq_nil_iff.1 (he.symm.trans h)).2 (hd b)

omit between_len in
theorem lastAt_of_rightMost {T : BinTree E N L} (sound : w.EmptySound F hash T) {ds : List Side}
    {l : L} (hl : T.leafAt ds = some l) (h : w.RightMost (F.cuts hash T ds)) : T.LastAt ds := by
  induction T generalizing ds with
  | empty e => simp [BinTree.leafAt] at hl
  | leaf m => cases ds <;> simp_all [BinTree.leafAt, BinTree.LastAt]
  | node n a b iha ihb =>
    rcases ds with _ | ⟨_ | _, ds⟩
    · simp [BinTree.leafAt] at hl
    · rw [NodeFormat.cuts, rightMost_append] at h
      refine ⟨?_, iha sound.2.1 hl h.1⟩
      rcases h.2 _ (List.mem_singleton_self _) with h' | ⟨-, h'⟩
      · exact absurd h' (not_isRight_leftCut hlen blank_len n b)
      · exact sound.1.2 h'
    · rw [NodeFormat.cuts, rightMost_append] at h
      exact ihb sound.2.2 hl h.1

theorem neighbors_of_leftNeighbor {T : BinTree E N L} (sound : w.EmptySound F hash T)
    {ds es : List Side} {l r : L} (hl : T.leafAt ds = some l) (hr : T.leafAt es = some r)
    (h : w.LeftNeighbor (F.cuts hash T ds) (F.cuts hash T es)) : T.Neighbors ds es := by
  induction T generalizing ds es with
  | empty e => exact absurd h leftNeighbor_nil_left
  | leaf m => exact absurd h leftNeighbor_nil_left
  | node n a b iha ihb =>
    rcases ds with _ | ⟨_ | _, ds⟩ <;> rcases es with _ | ⟨_ | _, es⟩
    case cons.left.cons.left =>
      rw [NodeFormat.cuts, NodeFormat.cuts, leftNeighbor_concat] at h
      rcases h with ⟨-, h⟩ | ⟨-, h, -⟩
      · exact iha sound.2.1 hl hr h
      · exact absurd h (not_isRight_leftCut hlen blank_len n b)
    case cons.left.cons.right =>
      rw [NodeFormat.cuts, NodeFormat.cuts, leftNeighbor_concat] at h
      rcases h with ⟨h, -⟩ | ⟨-, -, h, h'⟩
      · exact absurd h (leftCut_ne_rightCut hlen blank_len n b a)
      · exact ⟨lastAt_of_rightMost hlen blank_len sound.2.1 hl h,
          firstAt_of_leftMost hlen blank_len between_len sound.2.2 hr h'⟩
    case cons.right.cons.left =>
      rw [NodeFormat.cuts, NodeFormat.cuts, leftNeighbor_concat] at h
      rcases h with ⟨h, -⟩ | ⟨h, -⟩
      · exact absurd h.symm (leftCut_ne_rightCut hlen blank_len n b a)
      · exact absurd h (not_isLeft_rightCut n _)
    case cons.right.cons.right =>
      rw [NodeFormat.cuts, NodeFormat.cuts, leftNeighbor_concat] at h
      rcases h with ⟨-, h⟩ | ⟨h, -⟩
      · exact ihb sound.2.2 hl hr h
      · exact absurd h (not_isLeft_rightCut n _)
    -- a path that stops at an inner node leads to no leaf
    all_goals simp [BinTree.leafAt] at hl hr

/-- The check accepts only gaps of the tree. -/
theorem gap_of_gapCuts {T : BinTree E N L} (sound : w.EmptySound F hash T)
    {l r : Option (List Side)} (hl : ∀ ds ∈ l, ∃ x, T.leafAt ds = some x)
    (hr : ∀ es ∈ r, ∃ x, T.leafAt es = some x)
    (h : w.GapCuts (l.map (F.cuts hash T)) (r.map (F.cuts hash T))) : T.Gap l r := by
  rcases l with _ | ds <;> rcases r with _ | es
  · exact h
  · obtain ⟨x, hx⟩ := hr es rfl
    exact firstAt_of_leftMost hlen blank_len between_len sound hx h
  · obtain ⟨x, hx⟩ := hl ds rfl
    exact lastAt_of_rightMost hlen blank_len sound hx h
  · obtain ⟨x, hx⟩ := hl ds rfl
    obtain ⟨y, hy⟩ := hr es rfl
    exact neighbors_of_leftNeighbor hlen blank_len between_len sound hx hy h

end Sound

/-! ### From the shape to the check -/

section Complete

/-- All inner nodes have headers of an admissible length, and children without a leaf fill their
slot with what counts as empty. -/
def Fits (w : Slots) (F : NodeFormat E N L) (hash : Bytes → Bytes) (T : BinTree E N L) : Prop :=
  T.AllNodes fun n a b => (w.lo ≤ (F.before n).length ∧ (F.before n).length ≤ w.hi) ∧
    (a.NoLeaf → w.empty = F.digest hash a ++ F.between n) ∧
    (b.NoLeaf → w.empty = F.between n ++ F.digest hash b)

theorem leftMost_of_firstAt {T : BinTree E N L} (fits : w.Fits F hash T) {ds : List Side}
    (h : T.FirstAt ds) : w.LeftMost (F.cuts hash T ds) := by
  induction T generalizing ds with
  | empty e => simp [BinTree.FirstAt] at h
  | leaf m => simp [NodeFormat.cuts, LeftMost]
  | node n a b iha ihb =>
    rcases ds with _ | ⟨_ | _, ds⟩
    · simp [BinTree.FirstAt] at h
    · rw [NodeFormat.cuts, leftMost_append]
      refine ⟨iha fits.2.1 h, fun c hc => ?_⟩
      rw [List.mem_singleton.1 hc]
      exact .inl (isLeft_leftCut hlen blank_len between_len fits.1.1 b)
    · rw [NodeFormat.cuts, leftMost_append]
      refine ⟨ihb fits.2.2 h.2, fun c hc => ?_⟩
      rw [List.mem_singleton.1 hc, drop_rightCut hlen blank_len between_len]
      exact .inr ⟨isRight_rightCut hlen blank_len between_len fits.1.1 a, fits.1.2.1 h.1⟩

theorem rightMost_of_lastAt {T : BinTree E N L} (fits : w.Fits F hash T) {ds : List Side}
    (h : T.LastAt ds) : w.RightMost (F.cuts hash T ds) := by
  induction T generalizing ds with
  | empty e => simp [BinTree.LastAt] at h
  | leaf m => simp [NodeFormat.cuts, RightMost]
  | node n a b iha ihb =>
    rcases ds with _ | ⟨_ | _, ds⟩
    · simp [BinTree.LastAt] at h
    · rw [NodeFormat.cuts, rightMost_append]
      refine ⟨iha fits.2.1 h.2, fun c hc => ?_⟩
      rw [List.mem_singleton.1 hc]
      exact .inr ⟨isLeft_leftCut hlen blank_len between_len fits.1.1 b, fits.1.2.2 h.1⟩
    · rw [NodeFormat.cuts, rightMost_append]
      refine ⟨ihb fits.2.2 h, fun c hc => ?_⟩
      rw [List.mem_singleton.1 hc]
      exact .inl (isRight_rightCut hlen blank_len between_len fits.1.1 a)

theorem leftNeighbor_of_neighbors {T : BinTree E N L} (fits : w.Fits F hash T)
    {ds es : List Side} (h : T.Neighbors ds es) :
    w.LeftNeighbor (F.cuts hash T ds) (F.cuts hash T es) := by
  induction T generalizing ds es with
  | empty e => simp [BinTree.Neighbors] at h
  | leaf m => simp [BinTree.Neighbors] at h
  | node n a b iha ihb =>
    rcases ds with _ | ⟨_ | _, ds⟩ <;> rcases es with _ | ⟨_ | _, es⟩
    case cons.left.cons.left =>
      rw [NodeFormat.cuts, NodeFormat.cuts, leftNeighbor_concat]
      exact .inl ⟨rfl, iha fits.2.1 h⟩
    case cons.left.cons.right =>
      rw [NodeFormat.cuts, NodeFormat.cuts, leftNeighbor_concat]
      exact .inr ⟨isLeft_leftCut hlen blank_len between_len fits.1.1 b,
        isRight_rightCut hlen blank_len between_len fits.1.1 a,
        rightMost_of_lastAt hlen blank_len between_len fits.2.1 h.1,
        leftMost_of_firstAt hlen blank_len between_len fits.2.2 h.2⟩
    case cons.right.cons.right =>
      rw [NodeFormat.cuts, NodeFormat.cuts, leftNeighbor_concat]
      exact .inl ⟨rfl, ihb fits.2.2 h⟩
    all_goals simp [BinTree.Neighbors] at h

/-- The check accepts all gaps of the tree. -/
theorem gapCuts_of_gap {T : BinTree E N L} (fits : w.Fits F hash T) {l r : Option (List Side)}
    (h : T.Gap l r) : w.GapCuts (l.map (F.cuts hash T)) (r.map (F.cuts hash T)) := by
  rcases l with _ | ds <;> rcases r with _ | es
  · exact h
  · exact leftMost_of_firstAt hlen blank_len between_len fits h
  · exact rightMost_of_lastAt hlen blank_len between_len fits h
  · exact leftNeighbor_of_neighbors hlen blank_len between_len fits h

end Complete

end Honest

end Slots

end Ics23
