import Mathlib

/-!
# Nodes with slots of equal width

A node is a header followed by a fixed number of slots of equal width (`Node`).  What stands before
and after a slot determines which slot it is (`before_append_slot`, `cut_eq_slot`), and all other
slots are found in it at multiples of the width (`window_before`, `window_after`).
-/

namespace Ics23

/-! ### Lists of equal length -/

section Flatten

variable {α : Type} {L : List (List α)} {c : ℕ} (h : ∀ s ∈ L, s.length = c)

include h

theorem sum_take_lengths {i : ℕ} (hi : i ≤ L.length) :
    ((L.map List.length).take i).sum = i * c := by
  have hmap : L.map List.length = List.replicate L.length c := by
    rw [List.eq_replicate_iff, List.length_map]
    exact ⟨rfl, List.forall_mem_map.2 h⟩
  rw [hmap, List.take_replicate, List.sum_replicate, Nat.min_eq_left hi, smul_eq_mul]

theorem length_flatten_eq : L.flatten.length = L.length * c := by
  rw [List.length_flatten, ← sum_take_lengths h le_rfl, List.take_of_length_le (by simp)]

/-- The window at a multiple of the length. -/
theorem window_flatten {i : ℕ} (hi : i < L.length) : (L.flatten.drop (i * c)).take c = L[i] := by
  have hwindow := L.drop_take_succ_flatten_eq_getElem i hi
  rw [sum_take_lengths h hi, sum_take_lengths h hi.le, List.drop_take] at hwindow
  rwa [Nat.succ_mul, Nat.add_sub_cancel_left] at hwindow

end Flatten

/-! ### Nodes -/

/-- The sizes of a node: `arity` slots of `width` elements, after a header of `lo` to `hi` elements,
where the choice of the header leaves less than a slot open. -/
structure Layout where
  arity : ℕ
  width : ℕ
  lo : ℕ
  hi : ℕ
  arity_pos : 0 < arity
  width_pos : 0 < width
  lo_le_hi : lo ≤ hi
  hi_lt : hi < lo + width

/-- A slot ends before the first `k` slots do exactly if it is one of them. -/
theorem Layout.slot_le_iff (w : Layout) {q k : ℕ} :
    q * w.width + w.width ≤ k * w.width ↔ q < k := by
  rw [← Nat.succ_mul, Nat.mul_le_mul_right_iff w.width_pos, Nat.succ_le_iff]

/-- The numbers of elements before and after a slot in some node. -/
structure Layout.Around (w : Layout) (p : Fin w.arity) (before after : ℕ) : Prop where
  lo_le : p * w.width + w.lo ≤ before
  le_hi : before ≤ p * w.width + w.hi
  after_eq : after = (w.arity - (p + 1)) * w.width

/-- The slots after a slot tell which slot it is. -/
theorem Layout.Around.unique {w : Layout} {p q : Fin w.arity} {before after : ℕ}
    (hp : w.Around p before after) (hq : w.Around q before after) : p = q := by
  have heq := Nat.eq_of_mul_eq_mul_right w.width_pos (hp.after_eq.symm.trans hq.after_eq)
  omega

/-- Whole slots follow a slot, and what is left of the node has the right length. -/
theorem Layout.exists_around_iff (w : Layout) {before after : ℕ} :
    (∃ p, w.Around p before after) ↔
      w.lo ≤ before ∧ w.width ∣ after ∧ w.lo + (w.arity - 1) * w.width ≤ before + after ∧
        before + after ≤ w.hi + (w.arity - 1) * w.width := by
  constructor
  · rintro ⟨p, hlo, hhi, rfl⟩
    have hsplit : (w.arity - 1) * w.width = p * w.width + (w.arity - (p + 1)) * w.width := by
      rw [← Nat.add_mul]
      congr 1
      omega
    exact ⟨by omega, Dvd.intro_left _ rfl, by omega, by omega⟩
  · rintro ⟨hbefore, ⟨k, rfl⟩, hmin, hmax⟩
    have hk : k < w.arity := by
      refine Nat.lt_of_mul_lt_mul_left (a := w.width) ?_
      have hlt := w.hi_lt
      have hnode : w.width * w.arity = (w.arity - 1) * w.width + w.width := by
        rw [← Nat.succ_mul, mul_comm, Nat.succ_eq_add_one, Nat.sub_add_cancel w.arity_pos]
      omega
    have hp : w.arity - (w.arity - 1 - k + 1) = k := by omega
    have hsplit : (w.arity - 1) * w.width = (w.arity - 1 - k) * w.width + w.width * k := by
      rw [mul_comm w.width k, ← Nat.add_mul]
      congr 1
      omega
    refine ⟨⟨w.arity - 1 - k, by omega⟩, ?_, ?_, ?_⟩
    · show (w.arity - 1 - k) * w.width + w.lo ≤ before
      omega
    · show before ≤ (w.arity - 1 - k) * w.width + w.hi
      omega
    · show w.width * k = (w.arity - (w.arity - 1 - k + 1)) * w.width
      rw [hp, mul_comm]

/-- A header and the content of each slot. -/
structure Node (α : Type) (w : Layout) where
  header : List α
  slot : Fin w.arity → List α
  lo_le : w.lo ≤ header.length
  le_hi : header.length ≤ w.hi
  length_slot : ∀ q, (slot q).length = w.width

namespace Node

variable {α : Type} {w : Layout} (N : Node α w)

def slots : List (List α) := List.ofFn N.slot

/-- What stands before the slot `p`. -/
def before (p : ℕ) : List α := N.header ++ (N.slots.take p).flatten

/-- What stands after the slot `p`. -/
def after (p : ℕ) : List α := (N.slots.drop (p + 1)).flatten

def content : List α := N.header ++ N.slots.flatten

@[simp] theorem length_slots : N.slots.length = w.arity := List.length_ofFn

theorem getElem_slots (q : Fin w.arity) (h : (q : ℕ) < N.slots.length) : N.slots[q] = N.slot q := by
  simp [slots]

theorem length_of_mem_slots {s : List α} (h : s ∈ N.slots) : s.length = w.width := by
  obtain ⟨q, rfl⟩ := List.mem_ofFn.1 h
  exact N.length_slot q

theorem length_before {p : ℕ} (h : p ≤ w.arity) :
    (N.before p).length = N.header.length + p * w.width := by
  rw [before, List.length_append,
    length_flatten_eq fun s hs => N.length_of_mem_slots (List.mem_of_mem_take hs),
    List.length_take, length_slots, Nat.min_eq_left h]

theorem length_after (p : ℕ) : (N.after p).length = (w.arity - (p + 1)) * w.width := by
  rw [after, length_flatten_eq fun s hs => N.length_of_mem_slots (List.mem_of_mem_drop hs),
    List.length_drop, length_slots]

/-- The lengths of what stands before and after a slot tell which slot it is. -/
theorem around_iff {p q : Fin w.arity} :
    w.Around q (N.before p).length (N.after p).length ↔ p = q := by
  have haround : w.Around p (N.before p).length (N.after p).length := by
    have hlo := N.lo_le
    have hhi := N.le_hi
    have hlen := N.length_before p.isLt.le
    exact ⟨by omega, by omega, N.length_after p⟩
  constructor
  · exact haround.unique
  · rintro rfl
    exact haround

/-- A slot between what stands before and after it. -/
theorem before_append_slot (p : Fin w.arity) : N.before p ++ N.slot p ++ N.after p = N.content := by
  have hp : (p : ℕ) < N.slots.length := by simp
  have hsplit : N.slots = N.slots.take p ++ N.slot p :: N.slots.drop (p + 1) := by
    rw [← N.getElem_slots p hp]
    simp
  rw [content, hsplit]
  simp only [before, after, List.flatten_append, List.flatten_cons, List.append_assoc]

/-- An earlier slot, found before the slot `p`. -/
theorem window_before {p : ℕ} {q : Fin w.arity} (h : (q : ℕ) < p) :
    ((N.before p).drop (N.header.length + q * w.width)).take w.width = N.slot q := by
  have hq : (q : ℕ) < (N.slots.take p).length := by simp [h]
  rw [before, List.drop_append, List.drop_of_length_le (by omega), List.nil_append,
    Nat.add_sub_cancel_left,
    window_flatten (fun s hs => N.length_of_mem_slots (List.mem_of_mem_take hs)) hq]
  simp [slots]

/-- A later slot, found after the slot `p`. -/
theorem window_after {p : ℕ} {q : Fin w.arity} (h : p < q) :
    ((N.after p).drop ((q - (p + 1)) * w.width)).take w.width = N.slot q := by
  have hq : (q : ℕ) - (p + 1) < (N.slots.drop (p + 1)).length := by simp; omega
  rw [after, window_flatten (fun s hs => N.length_of_mem_slots (List.mem_of_mem_drop hs)) hq]
  have hindex : p + 1 + (q - (p + 1)) = (q : ℕ) := by omega
  simp [slots, hindex]

/-- A piece as wide as a slot is a slot, if it follows at least `lo` elements and whole slots follow
it. -/
theorem cut_eq_slot {pre child suf : List α} (h : pre ++ child ++ suf = N.content)
    (hchild : child.length = w.width) (hpre : w.lo ≤ pre.length) (hsuf : w.width ∣ suf.length) :
    ∃ p : Fin w.arity, child = N.slot p ∧ pre = N.before p ∧ suf = N.after p := by
  obtain ⟨k, hk⟩ := hsuf
  have hlen := congrArg List.length h
  rw [content, List.length_append, List.length_append, List.length_append,
    length_flatten_eq fun s hs => N.length_of_mem_slots hs, length_slots, hchild, hk] at hlen
  -- one slot more after the piece would leave too little before it
  have hkn : k < w.arity := by
    by_contra hge
    obtain ⟨d, rfl⟩ := Nat.exists_eq_add_of_le (not_lt.1 hge)
    have := N.le_hi
    have := w.hi_lt
    have hexpand : w.width * (w.arity + d) = w.arity * w.width + w.width * d := by ring
    omega
  obtain ⟨p, hp⟩ := Nat.exists_eq_add_of_lt hkn
  have hpn : p < w.arity := by omega
  have hprelen : pre.length = (N.before p).length := by
    have hexpand : w.arity * w.width = w.width * k + p * w.width + w.width := by rw [hp]; ring
    rw [N.length_before hpn.le]
    omega
  rw [← N.before_append_slot ⟨p, hpn⟩, List.append_assoc, List.append_assoc] at h
  obtain ⟨hpre', h⟩ := List.append_inj h hprelen
  obtain ⟨hchild', hsuf'⟩ := List.append_inj h (hchild.trans (N.length_slot _).symm)
  exact ⟨⟨p, hpn⟩, hchild', hpre', hsuf'⟩

end Node

end Ics23
