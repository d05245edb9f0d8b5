import Ics23.Go.Proof
import Ics23.Places

/-!
# The padding of a position in the Go module

The module looks up the position of a branch in the child order, and the padding of the branch is
that of its position (`getPadding_eq`).
-/

namespace Ics23.Go

open Outcome

/-- The padding of the position `q`. -/
def paddingAt (w : Layout) (q : ℕ) : Padding where
  minPrefix := (q * w.width + w.lo : ℕ)
  maxPrefix := (q * w.width + w.hi : ℕ)
  suffix := ((w.arity - (q + 1)) * w.width : ℕ)

variable {s : InnerSpec} {w : Layout} {σ : Equiv.Perm (Fin w.arity)} (L : HasLayout s w σ)

include L

/-- The position of a branch. -/
theorem getPosition_eq (q : Fin w.arity) :
    getPosition s.childOrder (Int32.ofNat (σ q)) = .ok q := by
  have hlen := L.length_childOrder
  have hq : (q : ℕ) < s.childOrder.length := by rw [hlen]; exact q.isLt
  have hbranch := L.toInt_branch q
  have hvalid : ¬ (Int32.ofNat (σ q) < 0 ∨ (Int32.ofNat (σ q)).toInt ≥ s.childOrder.length) := by
    have := (σ q).isLt
    rw [Int32.lt_iff_toInt_lt, hbranch, hlen, show (0 : Int32).toInt = 0 from rfl]
    omega
  have hfind : s.childOrder.findIdx? (· = Int32.ofNat (σ q)) = some (q : ℕ) := by
    rw [List.findIdx?_eq_some_iff_getElem]
    refine ⟨hq, ?_, fun j hj => ?_⟩
    · rw [decide_eq_true_eq, ← Int32.toInt_inj, hbranch, L.getElem_childOrder q hq]
    · have hjn : j < w.arity := hj.trans q.isLt
      rw [decide_eq_true_eq, ← Int32.toInt_inj, hbranch,
        L.getElem_childOrder ⟨j, hjn⟩ (hj.trans hq), Nat.cast_inj, ← Fin.ext_iff,
        σ.injective.eq_iff, Fin.ext_iff]
      exact hj.ne
  rw [getPosition, if_neg hvalid, hfind]

theorem getPadding_eq (q : Fin w.arity) :
    getPadding s (Int32.ofNat (σ q)) = .ok (paddingAt w q) := by
  have hq := q.isLt
  have hmul := L.mul_width_le hq.le
  have hrest := L.mul_width_le (Nat.sub_le w.arity (q + 1))
  have hlo := w.lo_le_hi
  have hhi := L.hi_lt
  have hothers : ((w.arity : ℤ) - 1 - (q : ℕ)) = (w.arity - (q + 1) : ℕ) := by omega
  rw [getPadding, getPosition_eq L, ok_bind, L.childSize, L.minPrefixLength, L.maxPrefixLength,
    L.length_childOrder, hothers]
  simp (disch := omega) only [← Nat.cast_mul, ← Nat.cast_add, int_natCast, pure_eq, paddingAt]

end Ics23.Go
