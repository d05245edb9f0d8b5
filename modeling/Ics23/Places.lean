import Ics23.BinarySpec
import Ics23.Lib.SlotNode

/-!
# Places in nodes of any arity

An inner spec with a permutation for its child order describes nodes with one slot for each branch
(`HasLayout`, `exists_hasLayout_iff`).  A step of a path is cut from such a node at a position
(`Place`), and the claims that proofs of absence make are about the slots of the branches before or
after its own (`EmptyBefore`, `EmptyAfter`).
-/

namespace Ics23

/-- An inner spec for nodes of the layout `w`, in which the position `p` holds the child of the
branch `σ p`. -/
structure HasLayout (s : InnerSpec) (w : Layout) (σ : Equiv.Perm (Fin w.arity)) : Prop where
  childOrder : s.childOrder.map Int32.toInt = List.ofFn fun p => ((σ p : ℕ) : ℤ)
  childSize : s.childSize.toInt = w.width
  minPrefixLength : s.minPrefixLength.toInt = w.lo
  maxPrefixLength : s.maxPrefixLength.toInt = w.hi

/-- A position in a node. -/
structure Place (w : Layout) where
  node : Node UInt8 w
  position : Fin w.arity

namespace Place

variable {w : Layout} (pl : Place w)

/-- What is left of the node without the child. -/
def cut : Cut := (pl.node.before pl.position, pl.node.after pl.position)

variable (σ : Equiv.Perm (Fin w.arity)) (empty : Bytes)

/-- The children of all smaller branches are the empty one. -/
def EmptyBefore : Prop := ∀ q, σ q < σ pl.position → pl.node.slot q = empty

/-- The children of all greater branches are the empty one. -/
def EmptyAfter : Prop := ∀ q, σ pl.position < σ q → pl.node.slot q = empty

end Place

/-- Two lists with the same images, in related terms. -/
theorem forall_mem_congr_of_map_eq {α β γ : Type} {f : α → γ} {g : β → γ} {l : List α} {m : List β}
    (h : l.map f = m.map g) {p : α → Prop} {q : β → Prop}
    (hpq : ∀ a, ∀ b ∈ m, f a = g b → (p a ↔ q b)) : (∀ a ∈ l, p a) ↔ ∀ b ∈ m, q b := by
  constructor
  · intro hl b hb
    obtain ⟨a, ha, hab⟩ := List.mem_map.1 (h ▸ List.mem_map_of_mem hb : g b ∈ l.map f)
    exact (hpq a b hb hab).1 (hl a ha)
  · intro hm a ha
    obtain ⟨b, hb, hab⟩ := List.mem_map.1 (h ▸ List.mem_map_of_mem ha : f a ∈ m.map g)
    exact (hpq a b hb hab.symm).2 (hm b hb)

/-- A permutation that takes nothing from outside an initial segment into it keeps it. -/
theorem perm_lt_of_lt {n k : ℕ} {σ : Equiv.Perm (Fin n)} (h : ∀ q, (σ q : ℕ) < k → (q : ℕ) < k)
    {q : Fin n} (hq : (q : ℕ) < k) : (σ q : ℕ) < k := by
  let S : Finset (Fin n) := Finset.univ.filter fun q => (q : ℕ) < k
  have hsub : S.map σ.symm.toEmbedding ⊆ S := by
    intro x hx
    obtain ⟨y, hy, rfl⟩ := Finset.mem_map.1 hx
    rw [Finset.mem_filter] at hy ⊢
    exact ⟨Finset.mem_univ _, h _ (by simpa using hy.2)⟩
  have heq : S.map σ.symm.toEmbedding = S :=
    Finset.eq_of_subset_of_card_le hsub (Finset.card_map _).ge
  have hmem : q ∈ S := Finset.mem_filter.2 ⟨Finset.mem_univ _, hq⟩
  rw [← heq] at hmem
  obtain ⟨y, hy, rfl⟩ := Finset.mem_map.1 hmem
  simpa using (Finset.mem_filter.1 hy).2

/-- A loop over a range comes to each of its numbers after all smaller ones. -/
theorem exists_range_eq {p n : ℕ} (h : p < n) :
    ∃ rest, List.range n = List.range p ++ p :: rest := by
  obtain ⟨k, rfl⟩ := Nat.exists_eq_add_of_lt h
  rw [add_assoc, List.range_add, List.range_succ_eq_map]
  exact ⟨_, rfl⟩

/-! ### The child order -/

namespace HasLayout

variable {s : InnerSpec} {w : Layout} {σ : Equiv.Perm (Fin w.arity)} (L : HasLayout s w σ)

include L

theorem length_childOrder : s.childOrder.length = w.arity := by
  have h := congrArg List.length L.childOrder
  rwa [List.length_map, List.length_ofFn] at h

theorem getElem_childOrder (p : Fin w.arity) (h : (p : ℕ) < s.childOrder.length) :
    s.childOrder[(p : ℕ)].toInt = (σ p : ℕ) := by
  have hget : (s.childOrder.map Int32.toInt)[(p : ℕ)]? = some ((σ p : ℕ) : ℤ) := by
    rw [L.childOrder]
    simp
  simpa [h] using hget

/-- Branches are numbered by an `i32`. -/
theorem arity_le : w.arity ≤ 2 ^ 31 := by
  have hlast : w.arity - 1 < w.arity := Nat.sub_lt w.arity_pos one_pos
  let p := σ.symm ⟨w.arity - 1, hlast⟩
  have hp : (p : ℕ) < s.childOrder.length := by simp [L.length_childOrder]
  have hget := L.getElem_childOrder p hp
  rw [Equiv.apply_symm_apply] at hget
  have hbound := s.childOrder[(p : ℕ)].toInt_lt
  rw [hget, Fin.val_mk] at hbound
  omega

theorem toInt_branch (p : Fin w.arity) : (Int32.ofNat (σ p)).toInt = (σ p : ℕ) :=
  Int32.toInt_ofNat_of_lt ((σ p).isLt.trans_le L.arity_le)

theorem width_lt : w.width < 2 ^ 31 := by
  have := s.childSize.toInt_lt
  have := L.childSize
  omega

theorem hi_lt : w.hi < 2 ^ 31 := by
  have := s.maxPrefixLength.toInt_lt
  have := L.maxPrefixLength
  omega

/-- A number of slots no greater than the arity has a size that is far from overflowing. -/
theorem mul_width_le {k : ℕ} (h : k ≤ w.arity) : k * w.width + 2 ^ 31 ≤ 2 ^ 62 := by
  have hwidth := L.width_lt
  have hmul : k * w.width ≤ 2 ^ 31 * (2 ^ 31 - 1) :=
    Nat.mul_le_mul (h.trans L.arity_le) (Nat.le_sub_one_of_lt hwidth)
  omega

end HasLayout

/-- The specs with a layout: the child order is a permutation of the branches, and the bounds of a
prefix leave less than a child open. -/
theorem exists_hasLayout_iff {s : InnerSpec} :
    (∃ w σ, HasLayout s w σ) ↔
      0 < s.childOrder.length ∧
      (s.childOrder.map Int32.toInt).Perm ((List.range s.childOrder.length).map Nat.cast) ∧
      0 < s.childSize.toInt ∧ 0 ≤ s.minPrefixLength.toInt ∧
      s.minPrefixLength.toInt ≤ s.maxPrefixLength.toInt ∧
      s.maxPrefixLength.toInt < s.minPrefixLength.toInt + s.childSize.toInt := by
  constructor
  · rintro ⟨w, σ, L⟩
    have hpos := w.arity_pos
    have hwidth := w.width_pos
    have hlo := w.lo_le_hi
    have hlt := w.hi_lt
    rw [L.length_childOrder, L.childSize, L.minPrefixLength, L.maxPrefixLength]
    refine ⟨hpos, ?_, by omega, by omega, by omega, by omega⟩
    have hrange : (List.range w.arity).map (Nat.cast : ℕ → ℤ) =
        List.ofFn fun p : Fin w.arity => ((p : ℕ) : ℤ) := by
      rw [← List.map_coe_finRange_eq_range, List.map_map, List.ofFn_eq_map]
      rfl
    rw [L.childOrder, hrange]
    exact σ.ofFn_comp_perm fun p => ((p : ℕ) : ℤ)
  · rintro ⟨hpos, hperm, hwidth, hmin, hle, hlt⟩
    let w : Layout :=
      { arity := s.childOrder.length
        width := s.childSize.toInt.toNat
        lo := s.minPrefixLength.toInt.toNat
        hi := s.maxPrefixLength.toInt.toNat
        arity_pos := hpos
        width_pos := by omega
        lo_le_hi := by omega
        hi_lt := by omega }
    let order := s.childOrder.map Int32.toInt
    have hlen : order.length = w.arity := List.length_map _
    have hbound (p : Fin w.arity) : ∃ b : Fin w.arity, order[p] = ((b : ℕ) : ℤ) := by
      have hmem : order[p] ∈ order := List.getElem_mem _
      obtain ⟨b, hb, heq⟩ := List.mem_map.1 (hperm.mem_iff.1 hmem)
      exact ⟨⟨b, List.mem_range.1 hb⟩, heq.symm⟩
    choose f hf using hbound
    have hnodup : order.Nodup :=
      hperm.nodup_iff.2 (List.nodup_range.map Nat.cast_injective)
    have hinj : Function.Injective f := by
      intro p q hpq
      have heq : order[p] = order[q] := by rw [hf, hf, hpq]
      exact Fin.ext (hnodup.getElem_inj_iff.1 heq)
    refine ⟨w, Equiv.ofBijective f (Finite.injective_iff_bijective.1 hinj), ?_,
      (Int.toNat_of_nonneg hwidth.le).symm, (Int.toNat_of_nonneg hmin).symm,
      (Int.toNat_of_nonneg (hmin.trans hle)).symm⟩
    refine List.ext_getElem (by rw [hlen, List.length_ofFn]) fun i hi _ => ?_
    rw [List.getElem_ofFn]
    exact hf ⟨i, hlen ▸ hi⟩

/-! ### Binary trees -/

/-- A node with two slots. -/
def Slots.layout (w : Slots) : Layout where
  arity := 2
  width := w.child
  lo := w.lo
  hi := w.hi
  arity_pos := two_pos
  width_pos := lt_of_lt_of_le (by norm_num) w.child_le
  lo_le_hi := w.lo_le_hi
  hi_lt := w.hi_lt

theorem BinaryShape.hasLayout {s : InnerSpec} {w : Slots} (B : BinaryShape s w) :
    HasLayout s w.layout 1 where
  childOrder := by
    rw [B.childOrder]
    rfl
  childSize := B.childSize
  minPrefixLength := B.minPrefixLength
  maxPrefixLength := B.maxPrefixLength

/-! ### Nodes with three children -/

def ternaryLayout : Layout where
  arity := 3
  width := 1
  lo := 1
  hi := 1
  arity_pos := by decide
  width_pos := by decide
  lo_le_hi := le_rfl
  hi_lt := by decide

/-- Children of one byte, of which the empty one is zero. -/
def ternarySpec (order : List Int32) : InnerSpec where
  childOrder := order
  childSize := 1
  minPrefixLength := 1
  maxPrefixLength := 1
  emptyChild := [0]
  hash := 1

def ternaryNode (a b c : UInt8) : Node UInt8 ternaryLayout where
  header := [9]
  slot := ![[a], [b], [c]]
  lo_le := le_rfl
  le_hi := le_rfl
  length_slot q := by
    fin_cases q <;> rfl

theorem hasLayout_inOrder : HasLayout (ternarySpec [0, 1, 2]) ternaryLayout 1 where
  childOrder := by decide
  childSize := by decide
  minPrefixLength := by decide
  maxPrefixLength := by decide

/-- The order of a tree that keeps the node's own child last. -/
def merkOrder : Equiv.Perm (Fin ternaryLayout.arity) := Equiv.swap (1 : Fin 3) (2 : Fin 3)

theorem hasLayout_merkOrder : HasLayout (ternarySpec [0, 2, 1]) ternaryLayout merkOrder where
  childOrder := by decide
  childSize := by decide
  minPrefixLength := by decide
  maxPrefixLength := by decide

end Ics23
