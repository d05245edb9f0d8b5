import Ics23.Lib.BinTree

/-!
# The depth of balanced trees

A tree is balanced if the heights of the two children of every node differ by at most one.  A
balanced tree without empty subtrees has at least a Fibonacci number of leaves
(`fib_le_length_leaves`), so that few leaves cannot be deep (`Balanced.length_lt`).
-/

namespace Ics23.BinTree

variable {E N L : Type}

/-- The number of turns down to the deepest leaf. -/
def height : BinTree E N L → ℕ
  | empty _ => 0
  | leaf _ => 0
  | node _ a b => max a.height b.height + 1

def Balanced (T : BinTree E N L) : Prop :=
  T.AllNodes fun _ a b => a.height ≤ b.height + 1 ∧ b.height ≤ a.height + 1

theorem length_le_height {T : BinTree E N L} {ds : List Side} {l : L} (h : T.leafAt ds = some l) :
    ds.length ≤ T.height := by
  induction T generalizing ds with
  | empty e => simp [leafAt] at h
  | leaf m => cases ds <;> simp_all [leafAt, height]
  | node n a b iha ihb =>
    rcases ds with _ | ⟨_ | _, ds⟩
    · simp [leafAt] at h
    · have ha : ds.length ≤ a.height := iha h
      rw [List.length_cons, height]
      omega
    · have hb : ds.length ≤ b.height := ihb h
      rw [List.length_cons, height]
      omega

/-- The higher child has a height one less than the node, and the other one at most two less. -/
theorem fib_le_length_leaves {T : BinTree Empty N L} (balanced : T.Balanced) :
    Nat.fib (T.height + 2) ≤ T.leaves.length := by
  induction T with
  | empty e => exact e.elim
  | leaf l => exact le_refl 1
  | node n a b iha ihb =>
    obtain ⟨⟨hab, hba⟩, ha, hb⟩ := balanced
    have hfa := iha ha
    have hfb := ihb hb
    have hsum : Nat.fib (max a.height b.height + 3) =
        Nat.fib (max a.height b.height + 1) + Nat.fib (max a.height b.height + 2) :=
      Nat.fib_add_two
    rw [height, leaves, List.length_append, hsum]
    rcases le_total a.height b.height with h | h
    · rw [max_eq_right h]
      have hlow : Nat.fib (b.height + 1) ≤ Nat.fib (a.height + 2) := Nat.fib_mono (by omega)
      omega
    · rw [max_eq_left h]
      have hlow : Nat.fib (a.height + 1) ≤ Nat.fib (b.height + 2) := Nat.fib_mono (by omega)
      omega

/-- A balanced tree with few leaves has short paths. -/
theorem Balanced.length_lt {T : BinTree Empty N L} (balanced : T.Balanced) {n : ℕ}
    (few : T.leaves.length < Nat.fib (n + 2)) {ds : List Side} {l : L}
    (h : T.leafAt ds = some l) : ds.length < n := by
  by_contra hn
  have hheight := length_le_height h
  have hfib : Nat.fib (n + 2) ≤ Nat.fib (T.height + 2) := Nat.fib_mono (by omega)
  have hleaves := fib_le_length_leaves balanced
  omega

end Ics23.BinTree
