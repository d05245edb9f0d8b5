import Ics23.Places
import Ics23.Rust.Verify

/-!
# The padding of a position

The crate looks up a branch in the child order and gets the branch itself back, so the padding of a
branch is that of the position with its number (`getPadding_eq_ok`).
-/

namespace Ics23.Rust

open Outcome

variable {s : InnerSpec} {w : Layout} {σ : Equiv.Perm (Fin w.arity)} (L : HasLayout s w σ)

include L

theorem asUsize_childSize : asUsize s.childSize.toInt = w.width := by
  have := L.width_lt
  rw [L.childSize, asUsize_natCast (by omega)]

/-- Every branch is found, and is its own index. -/
theorem findBranch_eq {b : ℕ} (h : b < w.arity) : ∃ x, findBranch s b = some x ∧ x.toInt = b := by
  have hmem : (b : ℤ) ∈ s.childOrder.map Int32.toInt := by
    rw [L.childOrder]
    exact List.mem_ofFn.2 ⟨σ.symm ⟨b, h⟩, by simp⟩
  obtain ⟨y, hy, hyb⟩ := List.mem_map.1 hmem
  have hsome : (findBranch s b).isSome := List.find?_isSome.2 ⟨y, hy, by simpa using hyb⟩
  obtain ⟨x, hx⟩ := Option.isSome_iff_exists.1 hsome
  exact ⟨x, hx, by simpa using List.find?_some hx⟩

theorem getPadding_eq_ok {b : ℕ} (h : b < w.arity) {pad : Padding} :
    getPadding s b = .ok pad ↔
      b * w.width + w.hi < 2 ^ 31 ∧
        pad = ⟨b * w.width + w.lo, b * w.width + w.hi, (w.arity - (b + 1)) * w.width⟩ := by
  obtain ⟨x, hfind, hx⟩ := findBranch_eq L h
  have harity := L.arity_le
  have hlo := w.lo_le_hi
  have hb : asUsize (b : ℤ) = b := asUsize_natCast (by omega)
  have hothers : w.arity - 1 - b = w.arity - (b + 1) := by omega
  have hsuffix : mulUsize w.width (w.arity - (b + 1)) = .ok ((w.arity - (b + 1)) * w.width) := by
    have hlt := L.mul_width_le (Nat.sub_le w.arity (b + 1))
    rw [mulUsize_eq (by rw [mul_comm]; omega), mul_comm]
  rw [getPadding, hfind]
  simp only [hx, asUsize_childSize L, L.length_childOrder, hb, subUsize_eq w.arity_pos, ok_bind,
    subUsize_eq (Nat.le_sub_one_of_lt h), hothers, hsuffix]
  simp only [bind_eq_ok, mulI32_eq_ok, addI32_eq_ok, pure_eq, Outcome.ok.injEq, L.childSize,
    L.minPrefixLength, L.maxPrefixLength, ← Nat.cast_mul]
  constructor
  · rintro ⟨_, ⟨-, rfl⟩, _, ⟨-, rfl⟩, _, ⟨hmax, rfl⟩, rfl⟩
    unfold InI32 at hmax
    rw [← Nat.cast_add, ← Nat.cast_add, asUsize_natCast (by omega), asUsize_natCast (by omega)]
    exact ⟨by omega, rfl⟩
  · rintro ⟨hfits, rfl⟩
    refine ⟨_, ⟨by unfold InI32; omega, rfl⟩, _, ⟨by unfold InI32; omega, rfl⟩, _,
      ⟨by unfold InI32; omega, rfl⟩, ?_⟩
    rw [← Nat.cast_add, ← Nat.cast_add, asUsize_natCast (by omega), asUsize_natCast (by omega)]

end Ics23.Rust
