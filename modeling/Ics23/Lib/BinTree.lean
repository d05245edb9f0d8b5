import Mathlib

/-!
# Binary trees with data at the leaves

Binary trees whose inner nodes carry an `N`, whose leaves carry an `L` and which may have empty
subtrees, tagged by an `E` (take `E = Empty` for trees without them).  A leaf is addressed by the
list of turns from the root down.

`Gap T l r` says that no leaf of `T` lies between the positions `l` and `r` (`none` stands for the
outside of the tree on that side), as a search along the two paths sees it: below the point where
they part every turn is an outermost one, or the subtree it leaves outside has no leaf.

* `Gap.not_mem`: in a tree sorted by `key`, a key strictly inside a gap is the key of no leaf.
* `gap_nearest`: the nearest leaves below and above an absent key bound a gap.
-/

namespace Ics23

/-- A turn at an inner node. -/
inductive Side where
  | left
  | right
  deriving DecidableEq, Repr

/-- Binary trees with data at inner nodes and leaves, and possibly empty subtrees. -/
inductive BinTree (E N L : Type) where
  | empty (e : E)
  | leaf (l : L)
  | node (n : N) (left right : BinTree E N L)

namespace BinTree

variable {E N L : Type}

/-! ### Leaves and positions -/

/-- The leaves in order. -/
def leaves : BinTree E N L → List L
  | empty _ => []
  | leaf l => [l]
  | node _ a b => a.leaves ++ b.leaves

/-- The leaf at the end of a path from the root. -/
def leafAt : BinTree E N L → List Side → Option L
  | leaf l, [] => some l
  | node _ a _, .left :: ds => a.leafAt ds
  | node _ _ b, .right :: ds => b.leafAt ds
  | _, _ => none

/-- All leaves in order, each with its path. -/
def positions : BinTree E N L → List (List Side × L)
  | empty _ => []
  | leaf l => [([], l)]
  | node _ a b =>
      a.positions.map (Prod.map (.left :: ·) id) ++ b.positions.map (Prod.map (.right :: ·) id)

theorem map_snd_positions (T : BinTree E N L) : T.positions.map Prod.snd = T.leaves := by
  induction T with
  | empty e => rfl
  | leaf l => rfl
  | node n a b iha ihb => simp [positions, leaves, ← iha, ← ihb, Function.comp_def]

theorem mem_positions {T : BinTree E N L} {ds : List Side} {l : L} :
    (ds, l) ∈ T.positions ↔ T.leafAt ds = some l := by
  induction T generalizing ds with
  | empty e => simp [positions, leafAt]
  | leaf m => cases ds <;> simp [positions, leafAt, eq_comm]
  | node n a b iha ihb =>
    rcases ds with _ | ⟨_ | _, ds⟩ <;> simp [positions, leafAt, iha, ihb]

theorem mem_leaves {T : BinTree E N L} {l : L} : l ∈ T.leaves ↔ ∃ ds, T.leafAt ds = some l := by
  simp only [← map_snd_positions, List.mem_map, Prod.exists, mem_positions, exists_eq_right]

theorem mem_leaves_of_leafAt {T : BinTree E N L} {ds : List Side} {l : L}
    (h : T.leafAt ds = some l) : l ∈ T.leaves := mem_leaves.2 ⟨ds, h⟩

/-- `p` holds at every inner node. -/
def AllNodes (p : N → BinTree E N L → BinTree E N L → Prop) : BinTree E N L → Prop
  | node n a b => p n a b ∧ a.AllNodes p ∧ b.AllNodes p
  | _ => True

theorem allNodes_of_forall {p : N → BinTree E N L → BinTree E N L → Prop} (h : ∀ n a b, p n a b)
    (T : BinTree E N L) : T.AllNodes p := by
  induction T with
  | empty e => trivial
  | leaf l => trivial
  | node n a b iha ihb => exact ⟨h n a b, iha, ihb⟩

theorem AllNodes.imp {p q : N → BinTree E N L → BinTree E N L → Prop} {T : BinTree E N L}
    (h : T.AllNodes p) (hpq : ∀ n a b, p n a b → q n a b) : T.AllNodes q := by
  induction T with
  | empty e => trivial
  | leaf l => trivial
  | node n a b iha ihb => exact ⟨hpq n a b h.1, iha h.2.1, ihb h.2.2⟩

/-! ### Outermost paths and gaps -/

/-- The subtree has no leaf. -/
def NoLeaf (T : BinTree E N L) : Prop := T.leaves = []

/-- The path ends at a leaf and leaves no leaf on its left. -/
def FirstAt : BinTree E N L → List Side → Prop
  | leaf _, [] => True
  | node _ a _, .left :: ds => a.FirstAt ds
  | node _ a b, .right :: ds => a.NoLeaf ∧ b.FirstAt ds
  | _, _ => False

/-- The path ends at a leaf and leaves no leaf on its right. -/
def LastAt : BinTree E N L → List Side → Prop
  | leaf _, [] => True
  | node _ a b, .left :: ds => b.NoLeaf ∧ a.LastAt ds
  | node _ _ b, .right :: ds => b.LastAt ds
  | _, _ => False

/-- The second path follows the first: they part to the left and to the right of one node, and
leave no leaf between them below it. -/
def Neighbors : BinTree E N L → List Side → List Side → Prop
  | node _ a _, .left :: ds, .left :: es => a.Neighbors ds es
  | node _ a b, .left :: ds, .right :: es => a.LastAt ds ∧ b.FirstAt es
  | node _ _ b, .right :: ds, .right :: es => b.Neighbors ds es
  | _, _, _ => False

/-- No leaf lies between the two positions, `none` being the outside of the tree. -/
def Gap (T : BinTree E N L) : Option (List Side) → Option (List Side) → Prop
  | some ds, some es => T.Neighbors ds es
  | some ds, none => T.LastAt ds
  | none, some es => T.FirstAt es
  | none, none => False

theorem FirstAt.leaves_eq {T : BinTree E N L} {ds : List Side} {l : L} (h : T.FirstAt ds)
    (hl : T.leafAt ds = some l) : ∃ B, T.leaves = l :: B := by
  induction T generalizing ds with
  | empty e => simp [FirstAt] at h
  | leaf m => cases ds <;> simp_all [FirstAt, leafAt, leaves]
  | node n a b iha ihb =>
    rcases ds with _ | ⟨_ | _, ds⟩
    · simp [FirstAt] at h
    · obtain ⟨B, hB⟩ := iha h hl
      exact ⟨B ++ b.leaves, by rw [leaves, hB]; rfl⟩
    · obtain ⟨B, hB⟩ := ihb h.2 hl
      exact ⟨B, by rw [leaves, h.1, hB]; rfl⟩

theorem LastAt.leaves_eq {T : BinTree E N L} {ds : List Side} {l : L} (h : T.LastAt ds)
    (hl : T.leafAt ds = some l) : ∃ A, T.leaves = A ++ [l] := by
  induction T generalizing ds with
  | empty e => simp [LastAt] at h
  | leaf m => cases ds <;> simp_all [LastAt, leafAt, leaves]
  | node n a b iha ihb =>
    rcases ds with _ | ⟨_ | _, ds⟩
    · simp [LastAt] at h
    · obtain ⟨A, hA⟩ := iha h.2 hl
      exact ⟨A, by rw [leaves, h.1, hA, List.append_nil]⟩
    · obtain ⟨A, hA⟩ := ihb h hl
      exact ⟨a.leaves ++ A, by rw [leaves, hA, List.append_assoc]⟩

/-- The leaves at neighbouring positions are adjacent. -/
theorem Neighbors.leaves_eq {T : BinTree E N L} {ds es : List Side} {l r : L}
    (h : T.Neighbors ds es) (hl : T.leafAt ds = some l) (hr : T.leafAt es = some r) :
    ∃ A B, T.leaves = A ++ l :: r :: B := by
  induction T generalizing ds es with
  | empty e => simp [Neighbors] at h
  | leaf m => simp [Neighbors] at h
  | node n a b iha ihb =>
    rcases ds with _ | ⟨_ | _, ds⟩ <;> rcases es with _ | ⟨_ | _, es⟩
    case cons.left.cons.left =>
      obtain ⟨A, B, hAB⟩ := iha h hl hr
      exact ⟨A, B ++ b.leaves, by simp [leaves, hAB]⟩
    case cons.left.cons.right =>
      obtain ⟨A, hA⟩ := h.1.leaves_eq hl
      obtain ⟨B, hB⟩ := h.2.leaves_eq hr
      exact ⟨A, B, by simp [leaves, hA, hB]⟩
    case cons.right.cons.right =>
      obtain ⟨A, B, hAB⟩ := ihb h hl hr
      exact ⟨a.leaves ++ A, B, by simp [leaves, hAB]⟩
    all_goals simp [Neighbors] at h

theorem noLeaf_or_firstAt (T : BinTree E N L) :
    T.NoLeaf ∨ ∃ es r, T.leafAt es = some r ∧ T.FirstAt es := by
  induction T with
  | empty e => exact .inl rfl
  | leaf l => exact .inr ⟨[], l, rfl, trivial⟩
  | node n a b iha ihb =>
    rcases iha with ha | ⟨es, r, hr, h⟩
    · rcases ihb with hb | ⟨es, r, hr, h⟩
      · exact .inl (List.append_eq_nil_iff.2 ⟨ha, hb⟩)
      · exact .inr ⟨.right :: es, r, hr, ha, h⟩
    · exact .inr ⟨.left :: es, r, hr, h⟩

theorem noLeaf_or_lastAt (T : BinTree E N L) :
    T.NoLeaf ∨ ∃ ds l, T.leafAt ds = some l ∧ T.LastAt ds := by
  induction T with
  | empty e => exact .inl rfl
  | leaf l => exact .inr ⟨[], l, rfl, trivial⟩
  | node n a b iha ihb =>
    rcases ihb with hb | ⟨ds, l, hl, h⟩
    · rcases iha with ha | ⟨ds, l, hl, h⟩
      · exact .inl (List.append_eq_nil_iff.2 ⟨ha, hb⟩)
      · exact .inr ⟨.left :: ds, l, hl, hb, h⟩
    · exact .inr ⟨.right :: ds, l, hl, h⟩

/-- After every leaf there is a gap, up to the next leaf or to the outside. -/
theorem exists_gap_after {T : BinTree E N L} {ds : List Side} {l : L} (hl : T.leafAt ds = some l) :
    ∃ right, T.Gap (some ds) right ∧ ∀ es ∈ right, ∃ r, T.leafAt es = some r := by
  induction T generalizing ds with
  | empty e => simp [leafAt] at hl
  | leaf m =>
    cases ds with
    | nil => exact ⟨none, trivial, by simp⟩
    | cons d ds => simp [leafAt] at hl
  | node n a b iha ihb =>
    rcases ds with _ | ⟨_ | _, ds⟩
    · simp [leafAt] at hl
    · obtain ⟨right, hgap, hright⟩ := iha hl
      rcases right with _ | es
      · rcases b.noLeaf_or_firstAt with hb | ⟨es, r, hr, h⟩
        · exact ⟨none, ⟨hb, hgap⟩, by simp⟩
        · exact ⟨some (.right :: es), ⟨hgap, h⟩, fun _ he => Option.some.inj he ▸ ⟨r, hr⟩⟩
      · exact ⟨some (.left :: es), hgap, fun _ he => Option.some.inj he ▸ hright es rfl⟩
    · obtain ⟨right, hgap, hright⟩ := ihb hl
      rcases right with _ | es
      · exact ⟨none, hgap, by simp⟩
      · exact ⟨some (.right :: es), hgap, fun _ he => Option.some.inj he ▸ hright es rfl⟩

/-- Before every leaf there is a gap, up to the previous leaf or to the outside. -/
theorem exists_gap_before {T : BinTree E N L} {es : List Side} {r : L}
    (hr : T.leafAt es = some r) :
    ∃ left, T.Gap left (some es) ∧ ∀ ds ∈ left, ∃ l, T.leafAt ds = some l := by
  induction T generalizing es with
  | empty e => simp [leafAt] at hr
  | leaf m =>
    cases es with
    | nil => exact ⟨none, trivial, by simp⟩
    | cons d es => simp [leafAt] at hr
  | node n a b iha ihb =>
    rcases es with _ | ⟨_ | _, es⟩
    · simp [leafAt] at hr
    · obtain ⟨left, hgap, hleft⟩ := iha hr
      rcases left with _ | ds
      · exact ⟨none, hgap, by simp⟩
      · exact ⟨some (.left :: ds), hgap, fun _ hd => Option.some.inj hd ▸ hleft ds rfl⟩
    · obtain ⟨left, hgap, hleft⟩ := ihb hr
      rcases left with _ | ds
      · rcases a.noLeaf_or_lastAt with ha | ⟨ds, l, hl, h⟩
        · exact ⟨none, ⟨ha, hgap⟩, by simp⟩
        · exact ⟨some (.left :: ds), ⟨h, hgap⟩, fun _ hd => Option.some.inj hd ▸ ⟨l, hl⟩⟩
      · exact ⟨some (.right :: ds), hgap, fun _ hd => Option.some.inj hd ▸ hleft ds rfl⟩

/-- Without empty subtrees, every tree has a leaf. -/
theorem leaves_ne_nil (T : BinTree Empty N L) : T.leaves ≠ [] := by
  induction T with
  | empty e => exact e.elim
  | leaf l => simp [leaves]
  | node n a b iha ihb => simp [leaves, iha]

/-! ### Keys -/

section Keys

variable {K : Type} [LT K] (key : L → K)

/-- The keys strictly increase from left to right. -/
def Sorted (T : BinTree E N L) : Prop := (T.leaves.map key).Pairwise (· < ·)

variable {key}

theorem Sorted.left {n : N} {a b : BinTree E N L} (h : Sorted key (node n a b)) :
    Sorted key a := by
  simp only [Sorted, leaves, List.map_append, List.pairwise_append] at h
  exact h.1

theorem Sorted.right {n : N} {a b : BinTree E N L} (h : Sorted key (node n a b)) :
    Sorted key b := by
  simp only [Sorted, leaves, List.map_append, List.pairwise_append] at h
  exact h.2.1

theorem Sorted.lt {n : N} {a b : BinTree E N L} (h : Sorted key (node n a b)) {x y : L}
    (hx : x ∈ a.leaves) (hy : y ∈ b.leaves) : key x < key y := by
  simp only [Sorted, leaves, List.map_append, List.pairwise_append] at h
  exact h.2.2 _ (List.mem_map_of_mem hx) _ (List.mem_map_of_mem hy)

theorem Neighbors.lt {T : BinTree E N L} {ds es : List Side} {l r : L} (sorted : Sorted key T)
    (h : T.Neighbors ds es) (hl : T.leafAt ds = some l) (hr : T.leafAt es = some r) :
    key l < key r := by
  obtain ⟨A, B, hAB⟩ := h.leaves_eq hl hr
  unfold Sorted at sorted
  rw [hAB, List.map_append, List.map_cons, List.map_cons, List.pairwise_append,
    List.pairwise_cons] at sorted
  exact sorted.2.1.1 _ List.mem_cons_self

/-! ### The nearest leaves of a key -/

variable [DecidableLT K] (key)

/-- The right-most leaf with a key below `k`; in a sorted tree, the one with the greatest. -/
def nearestBelow (T : BinTree E N L) (k : K) : Option (List Side × L) :=
  (T.positions.filter fun p => key p.2 < k).getLast?

/-- The left-most leaf with a key above `k`; in a sorted tree, the one with the least. -/
def nearestAbove (T : BinTree E N L) (k : K) : Option (List Side × L) :=
  (T.positions.filter fun p => k < key p.2).head?

variable {key}

theorem nearestBelow_node {n : N} {a b : BinTree E N L} {k : K} :
    (node n a b).nearestBelow key k =
      ((b.nearestBelow key k).map (Prod.map (.right :: ·) id)).or
        ((a.nearestBelow key k).map (Prod.map (.left :: ·) id)) := by
  simp [nearestBelow, positions, List.filter_append, List.getLast?_append, List.filter_map,
    Function.comp_def, List.getLast?_map]

theorem nearestAbove_node {n : N} {a b : BinTree E N L} {k : K} :
    (node n a b).nearestAbove key k =
      ((a.nearestAbove key k).map (Prod.map (.left :: ·) id)).or
        ((b.nearestAbove key k).map (Prod.map (.right :: ·) id)) := by
  simp [nearestAbove, positions, List.filter_append, List.head?_append, List.filter_map,
    Function.comp_def, List.head?_map]

theorem nearestBelow_spec {T : BinTree E N L} {k : K} {p : List Side × L}
    (h : T.nearestBelow key k = some p) : T.leafAt p.1 = some p.2 ∧ key p.2 < k := by
  have := List.mem_of_getLast? h
  rw [List.mem_filter, decide_eq_true_iff] at this
  exact ⟨mem_positions.1 this.1, this.2⟩

theorem nearestAbove_spec {T : BinTree E N L} {k : K} {p : List Side × L}
    (h : T.nearestAbove key k = some p) : T.leafAt p.1 = some p.2 ∧ k < key p.2 := by
  have := List.mem_of_head? h
  rw [List.mem_filter, decide_eq_true_iff] at this
  exact ⟨mem_positions.1 this.1, this.2⟩

theorem nearestBelow_eq_none {T : BinTree E N L} {k : K} :
    T.nearestBelow key k = none ↔ ∀ x ∈ T.leaves, ¬ key x < k := by
  simp only [nearestBelow, List.getLast?_eq_none_iff, List.filter_eq_nil_iff, decide_eq_true_iff,
    ← map_snd_positions, List.forall_mem_map]

theorem nearestAbove_eq_none {T : BinTree E N L} {k : K} :
    T.nearestAbove key k = none ↔ ∀ x ∈ T.leaves, ¬ k < key x := by
  simp only [nearestAbove, List.head?_eq_none_iff, List.filter_eq_nil_iff, decide_eq_true_iff,
    ← map_snd_positions, List.forall_mem_map]

/-! ### Gaps in sorted trees -/

variable [LE K] [Std.IsLinearOrder K] [Std.LawfulOrderLT K]

omit [DecidableLT K] in
/-- In a sorted tree no leaf has a key strictly inside a gap. -/
theorem Gap.not_mem {T : BinTree E N L} (sorted : Sorted key T) {l r : Option (List Side)}
    (h : T.Gap l r) {k : K} (hl : ∀ ds ∈ l, ∃ x, T.leafAt ds = some x ∧ key x < k)
    (hr : ∀ es ∈ r, ∃ x, T.leafAt es = some x ∧ k < key x) {x : L} (hx : x ∈ T.leaves) :
    key x ≠ k := by
  rintro rfl
  unfold Sorted at sorted
  rcases l with _ | ds <;> rcases r with _ | es
  · exact h
  · obtain ⟨y, hy, hlt⟩ := hr es rfl
    obtain ⟨B, hB⟩ := FirstAt.leaves_eq h hy
    rw [hB, List.map_cons, List.pairwise_cons] at sorted
    rw [hB, List.mem_cons] at hx
    rcases hx with rfl | hx
    · exact Std.lt_irrefl hlt
    · exact Std.lt_irrefl (Std.lt_trans hlt (sorted.1 _ (List.mem_map_of_mem hx)))
  · obtain ⟨y, hy, hlt⟩ := hl ds rfl
    obtain ⟨A, hA⟩ := LastAt.leaves_eq h hy
    rw [hA, List.map_append, List.pairwise_append] at sorted
    rw [hA, List.mem_append, List.mem_singleton] at hx
    rcases hx with hx | rfl
    · exact Std.lt_irrefl
        (Std.lt_trans hlt (sorted.2.2 _ (List.mem_map_of_mem hx) _ (by simp)))
    · exact Std.lt_irrefl hlt
  · obtain ⟨y, hy, hlt⟩ := hl ds rfl
    obtain ⟨z, hz, hgt⟩ := hr es rfl
    obtain ⟨A, B, hAB⟩ := Neighbors.leaves_eq h hy hz
    rw [hAB, List.map_append, List.map_cons, List.map_cons, List.pairwise_append,
      List.pairwise_cons, List.pairwise_cons] at sorted
    simp only [hAB, List.mem_append, List.mem_cons] at hx
    rcases hx with hx | rfl | rfl | hx
    · exact Std.lt_irrefl
        (Std.lt_trans hlt (sorted.2.2 _ (List.mem_map_of_mem hx) _ (by simp)))
    · exact Std.lt_irrefl hlt
    · exact Std.lt_irrefl hgt
    · exact Std.lt_irrefl (Std.lt_trans hgt (sorted.2.1.2.1 _ (List.mem_map_of_mem hx)))

/-- With no leaf below and none above, an absent key leaves no leaf at all. -/
theorem noLeaf_of_nearest_eq_none {T : BinTree E N L} {k : K}
    (absent : ∀ x ∈ T.leaves, key x ≠ k) (hl : T.nearestBelow key k = none)
    (hr : T.nearestAbove key k = none) : T.NoLeaf := by
  rw [nearestBelow_eq_none] at hl
  rw [nearestAbove_eq_none] at hr
  refine List.eq_nil_iff_forall_not_mem.2 fun x hx => ?_
  rcases Std.lt_trichotomy (key x) k with h | h | h
  · exact hl x hx h
  · exact absent x hx h
  · exact hr x hx h

theorem lastAt_nearestBelow {T : BinTree E N L} {k : K} {p : List Side × L}
    (absent : ∀ x ∈ T.leaves, key x ≠ k) (hl : T.nearestBelow key k = some p)
    (hr : T.nearestAbove key k = none) : T.LastAt p.1 := by
  induction T generalizing p with
  | empty e => simp [nearestBelow, positions] at hl
  | leaf m =>
    simp only [nearestBelow, positions, List.filter_cons, List.filter_nil] at hl
    split_ifs at hl <;> simp at hl
    subst hl
    trivial
  | node n a b iha ihb =>
    simp only [leaves, List.mem_append] at absent
    rw [nearestBelow_node] at hl
    rw [nearestAbove_node, Option.or_eq_none_iff, Option.map_eq_none_iff,
      Option.map_eq_none_iff] at hr
    cases hb : b.nearestBelow key k with
    | some q =>
      rw [hb] at hl
      obtain rfl : Prod.map (.right :: ·) id q = p := by simpa using hl
      exact ihb (fun x hx => absent x (.inr hx)) hb hr.2
    | none =>
      rw [hb, Option.map_none, Option.none_or] at hl
      obtain ⟨q, hq, rfl⟩ := Option.map_eq_some_iff.1 hl
      exact ⟨noLeaf_of_nearest_eq_none (fun x hx => absent x (.inr hx)) hb hr.2,
        iha (fun x hx => absent x (.inl hx)) hq hr.1⟩

theorem firstAt_nearestAbove {T : BinTree E N L} {k : K} {p : List Side × L}
    (absent : ∀ x ∈ T.leaves, key x ≠ k) (hl : T.nearestBelow key k = none)
    (hr : T.nearestAbove key k = some p) : T.FirstAt p.1 := by
  induction T generalizing p with
  | empty e => simp [nearestAbove, positions] at hr
  | leaf m =>
    simp only [nearestAbove, positions, List.filter_cons, List.filter_nil] at hr
    split_ifs at hr <;> simp at hr
    subst hr
    trivial
  | node n a b iha ihb =>
    simp only [leaves, List.mem_append] at absent
    rw [nearestAbove_node] at hr
    rw [nearestBelow_node, Option.or_eq_none_iff, Option.map_eq_none_iff,
      Option.map_eq_none_iff] at hl
    cases ha : a.nearestAbove key k with
    | some q =>
      rw [ha] at hr
      obtain rfl : Prod.map (.left :: ·) id q = p := by simpa using hr
      exact iha (fun x hx => absent x (.inl hx)) hl.2 ha
    | none =>
      rw [ha, Option.map_none, Option.none_or] at hr
      obtain ⟨q, hq, rfl⟩ := Option.map_eq_some_iff.1 hr
      exact ⟨noLeaf_of_nearest_eq_none (fun x hx => absent x (.inl hx)) hl.2 ha,
        ihb (fun x hx => absent x (.inr hx)) hl.1 hq⟩

theorem neighbors_nearest {T : BinTree E N L} (sorted : Sorted key T) {k : K}
    {p q : List Side × L} (absent : ∀ x ∈ T.leaves, key x ≠ k)
    (hl : T.nearestBelow key k = some p) (hr : T.nearestAbove key k = some q) :
    T.Neighbors p.1 q.1 := by
  induction T generalizing p q with
  | empty e => simp [nearestBelow, positions] at hl
  | leaf m =>
    have h1 := nearestBelow_spec hl
    have h2 := nearestAbove_spec hr
    obtain rfl : p.2 = m := by simpa [leaves] using mem_leaves_of_leafAt h1.1
    obtain h : q.2 = p.2 := by simpa [leaves] using mem_leaves_of_leafAt h2.1
    rw [h] at h2
    exact absurd (Std.lt_trans h1.2 h2.2) Std.lt_irrefl
  | node n a b iha ihb =>
    simp only [leaves, List.mem_append] at absent
    rw [nearestBelow_node] at hl
    rw [nearestAbove_node] at hr
    cases hb : b.nearestBelow key k with
    | some p' =>
      -- a leaf of the right subtree is below `k`, so all of the left subtree is
      have hp' := nearestBelow_spec hb
      have ha : a.nearestAbove key k = none := nearestAbove_eq_none.2 fun x hx hlt =>
        Std.lt_irrefl (Std.lt_trans hlt
          (Std.lt_trans (sorted.lt hx (mem_leaves_of_leafAt hp'.1)) hp'.2))
      rw [hb] at hl
      obtain rfl : Prod.map (.right :: ·) id p' = p := by simpa using hl
      rw [ha, Option.map_none, Option.none_or] at hr
      obtain ⟨q', hq', rfl⟩ := Option.map_eq_some_iff.1 hr
      exact ihb sorted.right (fun x hx => absent x (.inr hx)) hb hq'
    | none =>
      rw [hb, Option.map_none, Option.none_or] at hl
      obtain ⟨p', hp', rfl⟩ := Option.map_eq_some_iff.1 hl
      cases ha : a.nearestAbove key k with
      | some q' =>
        rw [ha] at hr
        obtain rfl : Prod.map (.left :: ·) id q' = q := by simpa using hr
        exact iha sorted.left (fun x hx => absent x (.inl hx)) hp' ha
      | none =>
        rw [ha, Option.map_none, Option.none_or] at hr
        obtain ⟨q', hq', rfl⟩ := Option.map_eq_some_iff.1 hr
        exact ⟨lastAt_nearestBelow (fun x hx => absent x (.inl hx)) hp' ha,
          firstAt_nearestAbove (fun x hx => absent x (.inr hx)) hb hq'⟩

/-- The nearest leaves of an absent key bound a gap. -/
theorem gap_nearest {T : BinTree E N L} (sorted : Sorted key T) (nonempty : T.leaves ≠ []) {k : K}
    (absent : ∀ x ∈ T.leaves, key x ≠ k) :
    T.Gap ((T.nearestBelow key k).map Prod.fst) ((T.nearestAbove key k).map Prod.fst) := by
  cases hl : T.nearestBelow key k with
  | none =>
    cases hr : T.nearestAbove key k with
    | none => exact nonempty (noLeaf_of_nearest_eq_none absent hl hr)
    | some q => exact firstAt_nearestAbove absent hl hr
  | some p =>
    cases hr : T.nearestAbove key k with
    | none => exact lastAt_nearestBelow absent hl hr
    | some q => exact neighbors_nearest sorted absent hl hr

/-! ### Only the nearest leaves bound a gap -/

omit [DecidableLT K] [LE K] [Std.IsLinearOrder K] [Std.LawfulOrderLT K] in
theorem Sorted.pairwise_positions {T : BinTree E N L} (sorted : Sorted key T) :
    T.positions.Pairwise fun p q => key p.2 < key q.2 := by
  rw [Sorted, ← map_snd_positions, List.map_map] at sorted
  exact List.pairwise_map.1 sorted

omit [DecidableLT K] [Std.IsLinearOrder K] in
/-- No two positions of a sorted tree have the same key. -/
theorem Sorted.eq_of_key_eq {T : BinTree E N L} (sorted : Sorted key T) {p q : List Side × L}
    (hp : T.leafAt p.1 = some p.2) (hq : T.leafAt q.1 = some q.2) (h : key p.2 = key q.2) :
    p = q := by
  have hnodup : (T.positions.map fun p => key p.2).Nodup := by
    refine List.pairwise_map.2 (sorted.pairwise_positions.imp fun hlt heq => ?_)
    rw [heq] at hlt
    exact Std.lt_irrefl hlt
  exact List.inj_on_of_nodup_map hnodup (mem_positions.2 hp) (mem_positions.2 hq) h

omit [LE K] [Std.IsLinearOrder K] [Std.LawfulOrderLT K] in
theorem le_nearestBelow {T : BinTree E N L} (sorted : Sorted key T) {k : K} {p x : List Side × L}
    (hp : T.nearestBelow key k = some p) (hx : T.leafAt x.1 = some x.2) (hlt : key x.2 < k) :
    x = p ∨ key x.2 < key p.2 := by
  obtain ⟨A, hA⟩ := List.getLast?_eq_some_iff.1 hp
  have hmem : x ∈ A ++ [p] :=
    hA ▸ List.mem_filter.2 ⟨mem_positions.2 hx, decide_eq_true hlt⟩
  have hpair := sorted.pairwise_positions.filter fun p => decide (key p.2 < k)
  rw [hA, List.pairwise_append] at hpair
  rcases List.mem_append.1 hmem with hmem | hmem
  · exact .inr (hpair.2.2 x hmem p (List.mem_singleton_self p))
  · exact .inl (List.mem_singleton.1 hmem)

omit [LE K] [Std.IsLinearOrder K] [Std.LawfulOrderLT K] in
theorem nearestAbove_le {T : BinTree E N L} (sorted : Sorted key T) {k : K} {p x : List Side × L}
    (hp : T.nearestAbove key k = some p) (hx : T.leafAt x.1 = some x.2) (hlt : k < key x.2) :
    x = p ∨ key p.2 < key x.2 := by
  obtain ⟨B, hB⟩ := List.head?_eq_some_iff.1 hp
  have hmem : x ∈ p :: B := hB ▸ List.mem_filter.2 ⟨mem_positions.2 hx, decide_eq_true hlt⟩
  have hpair := sorted.pairwise_positions.filter fun p => decide (k < key p.2)
  rw [hB, List.pairwise_cons] at hpair
  rcases List.mem_cons.1 hmem with rfl | hmem
  · exact .inl rfl
  · exact .inr (hpair.1 x hmem)

/-- In a sorted tree, a gap around a key is bounded by the nearest leaves. -/
theorem Gap.eq_nearest {T : BinTree E N L} (sorted : Sorted key T) {l r : Option (List Side × L)}
    (h : T.Gap (l.map Prod.fst) (r.map Prod.fst)) {k : K}
    (hl : ∀ p ∈ l, T.leafAt p.1 = some p.2 ∧ key p.2 < k)
    (hr : ∀ q ∈ r, T.leafAt q.1 = some q.2 ∧ k < key q.2) :
    l = T.nearestBelow key k ∧ r = T.nearestAbove key k := by
  -- no leaf has a key between those of the gap
  have hnot {x : List Side × L} (hx : T.leafAt x.1 = some x.2) (hlx : ∀ p ∈ l, key p.2 < key x.2)
      (hxr : ∀ q ∈ r, key x.2 < key q.2) : False :=
    h.not_mem sorted
      (Option.forall_mem_map.2 fun p hp => ⟨p.2, (hl p hp).1, hlx p hp⟩)
      (Option.forall_mem_map.2 fun q hq => ⟨q.2, (hr q hq).1, hxr q hq⟩)
      (mem_leaves_of_leafAt hx) rfl
  constructor
  · cases hbelow : T.nearestBelow key k with
    | none =>
      cases l with
      | none => rfl
      | some p =>
        obtain ⟨hp, hlt⟩ := hl p rfl
        exact absurd hlt (nearestBelow_eq_none.1 hbelow p.2 (mem_leaves_of_leafAt hp))
    | some x =>
      obtain ⟨hx, hlt⟩ := nearestBelow_spec hbelow
      have hxr : ∀ q ∈ r, key x.2 < key q.2 := fun q hq => Std.lt_trans hlt (hr q hq).2
      cases l with
      | none => exact (hnot hx (by simp) hxr).elim
      | some p =>
        obtain ⟨hp, hplt⟩ := hl p rfl
        rcases le_nearestBelow sorted hbelow hp hplt with rfl | hpx
        · rfl
        · refine (hnot hx (fun q hq => ?_) hxr).elim
          obtain rfl := Option.some.inj hq
          exact hpx
  · cases habove : T.nearestAbove key k with
    | none =>
      cases r with
      | none => rfl
      | some q =>
        obtain ⟨hq, hlt⟩ := hr q rfl
        exact absurd hlt (nearestAbove_eq_none.1 habove q.2 (mem_leaves_of_leafAt hq))
    | some x =>
      obtain ⟨hx, hlt⟩ := nearestAbove_spec habove
      have hlx : ∀ p ∈ l, key p.2 < key x.2 := fun p hp => Std.lt_trans (hl p hp).2 hlt
      cases r with
      | none => exact (hnot hx hlx (by simp)).elim
      | some q =>
        obtain ⟨hq, hqlt⟩ := hr q rfl
        rcases nearestAbove_le sorted habove hq hqlt with rfl | hxq
        · rfl
        · refine (hnot hx hlx fun p hp => ?_).elim
          obtain rfl := Option.some.inj hp
          exact hxq

end Keys

end BinTree

end Ics23
