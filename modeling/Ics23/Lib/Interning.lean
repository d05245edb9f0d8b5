import Mathlib

/-!
# Interning tables

A table without duplicates numbers the values it holds by the places where they stand.  Interning a
value returns its number, adding it at the end of the table if it is not there yet.  The table only
ever grows at its end, so that the numbers handed out stay valid: every later table has the value at
its number (`getElem?_of_prefix`).
-/

namespace Ics23

/-- A table without duplicates. -/
structure InternTable (α : Type) where
  entries : List α
  nodup : entries.Nodup

namespace InternTable

variable {α : Type}

def empty : InternTable α := ⟨[], List.nodup_nil⟩

variable [DecidableEq α]

/-- The place of a value, and the table in which it stands there. -/
def intern (t : InternTable α) (x : α) : ℕ × InternTable α :=
  if h : x ∈ t.entries then (t.entries.idxOf x, t)
  else (t.entries.length, ⟨t.entries ++ [x], List.concat_eq_append ▸ t.nodup.concat h⟩)

/-- Intern the values from left to right. -/
def internAll (t : InternTable α) : List α → List ℕ × InternTable α
  | [] => ([], t)
  | x :: xs =>
    ((t.intern x).1 :: ((t.intern x).2.internAll xs).1, ((t.intern x).2.internAll xs).2)

variable (t : InternTable α) (x : α) (xs : List α)

theorem intern_of_mem (h : x ∈ t.entries) : t.intern x = (t.entries.idxOf x, t) := dif_pos h

theorem entries_intern_of_not_mem (h : x ∉ t.entries) :
    (t.intern x).1 = t.entries.length ∧ (t.intern x).2.entries = t.entries ++ [x] := by
  simp [intern, h]

theorem getElem?_intern : (t.intern x).2.entries[(t.intern x).1]? = some x := by
  by_cases h : x ∈ t.entries
  · rw [t.intern_of_mem x h]
    exact List.getElem?_idxOf h
  · obtain ⟨hn, ht⟩ := t.entries_intern_of_not_mem x h
    rw [hn, ht, List.getElem?_append_right le_rfl, Nat.sub_self]
    rfl

theorem prefix_intern : t.entries <+: (t.intern x).2.entries := by
  by_cases h : x ∈ t.entries
  · rw [t.intern_of_mem x h]
  · rw [(t.entries_intern_of_not_mem x h).2]
    exact List.prefix_append _ _

theorem mem_intern {y : α} : y ∈ (t.intern x).2.entries ↔ y ∈ t.entries ∨ y = x := by
  by_cases h : x ∈ t.entries
  · rw [t.intern_of_mem x h]
    exact ⟨.inl, fun hy => hy.elim id fun e => e ▸ h⟩
  · rw [(t.entries_intern_of_not_mem x h).2, List.mem_append, List.mem_singleton]

/-- A number stays valid in every later table. -/
theorem getElem?_of_prefix {table : List α} (h : (t.intern x).2.entries <+: table) :
    table[(t.intern x).1]? = some x := by
  obtain ⟨rest, rfl⟩ := h
  have hx := t.getElem?_intern x
  rw [List.getElem?_append_left (List.getElem?_eq_some_iff.1 hx).1, hx]

theorem prefix_internAll : t.entries <+: (t.internAll xs).2.entries := by
  induction xs generalizing t with
  | nil => exact List.prefix_rfl
  | cons x xs ih => exact (t.prefix_intern x).trans (ih _)

theorem mem_internAll {y : α} : y ∈ (t.internAll xs).2.entries ↔ y ∈ t.entries ∨ y ∈ xs := by
  induction xs generalizing t with
  | nil => simp [internAll]
  | cons x xs ih => rw [internAll, ih, mem_intern, List.mem_cons, or_assoc]

theorem internAll_append (ys : List α) :
    t.internAll (xs ++ ys) =
      ((t.internAll xs).1 ++ ((t.internAll xs).2.internAll ys).1,
        ((t.internAll xs).2.internAll ys).2) := by
  induction xs generalizing t with
  | nil => rfl
  | cons x xs ih => simp only [List.cons_append, internAll, ih]

/-- A table that was empty holds its values in the order in which they were first taken in. -/
theorem pairwise_internAll :
    (empty.internAll xs).2.entries.Pairwise fun x y => xs.idxOf x < xs.idxOf y := by
  induction xs using List.reverseRecOn with
  | nil => exact List.Pairwise.nil
  | append_singleton xs x ih =>
    have hmem {y : α} : y ∈ (empty.internAll xs).2.entries ↔ y ∈ xs := by
      simp [mem_internAll, empty]
    -- what is in the table already keeps its place in the longer list
    have hold : (empty.internAll xs).2.entries.Pairwise
        fun y z => (xs ++ [x]).idxOf y < (xs ++ [x]).idxOf z := by
      refine ih.imp_of_mem fun hy hz hlt => ?_
      rwa [List.idxOf_append_of_mem (hmem.1 hy), List.idxOf_append_of_mem (hmem.1 hz)]
    rw [internAll_append]
    show ((empty.internAll xs).2.intern x).2.entries.Pairwise _
    by_cases hx : x ∈ (empty.internAll xs).2.entries
    · rwa [intern_of_mem _ x hx]
    · rw [(entries_intern_of_not_mem _ x hx).2, List.pairwise_append]
      refine ⟨hold, List.pairwise_singleton _ _, fun y hy z hz => ?_⟩
      rw [List.mem_singleton.1 hz, List.idxOf_append_of_mem (hmem.1 hy),
        List.idxOf_append_of_notMem (mt hmem.2 hx), List.idxOf_cons_self]
      exact List.idxOf_lt_length_of_mem (hmem.1 hy)

/-- A table holds at most as many values as are taken in. -/
theorem length_internAll_le : (empty.internAll xs).2.entries.length ≤ xs.toFinset.card := by
  rw [← List.toFinset_card_of_nodup (empty.internAll xs).2.nodup]
  apply Finset.card_le_card
  intro y hy
  rw [List.mem_toFinset, mem_internAll] at hy
  exact List.mem_toFinset.2 (hy.resolve_left List.not_mem_nil)

end InternTable

end Ics23
