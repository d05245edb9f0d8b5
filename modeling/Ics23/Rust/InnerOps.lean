import Ics23.Rust.Verify

/-!
# Inner ops under any spec

`ensure_inner` computes with the numbers of the spec while it checks them.

* `ensureInner_iff`: what it accepts;
* `ensureInner_noPanic_iff`: when its arithmetic stays in range.
-/

namespace Ics23.Rust

open Outcome

theorem hasPrefix_iff {prefix_ data : Bytes} : hasPrefix prefix_ data ↔ prefix_ <+: data := by
  unfold hasPrefix
  split_ifs with h
  · simp only [false_iff]
    intro hp
    have := hp.length_le
    omega
  · rw [beq_iff_eq]
    exact List.prefix_iff_eq_take.symm

/-! ### Accepted inner ops -/

/-- The greatest length of an inner prefix that `ensure_inner` allows. -/
def maxInnerPrefix (s : InnerSpec) : ℤ :=
  s.maxPrefixLength.toInt + asI32 (s.childOrder.length - 1) * s.childSize.toInt

/-- The spec is one under which `ensure_inner` accepts anything, and an inner prefix may have the
given length. -/
structure AdmitsPrefix (s : InnerSpec) (length : ℕ) : Prop where
  branches : 0 < s.childOrder.length
  product : InI32 (asI32 (s.childOrder.length - 1) * s.childSize.toInt)
  sum : InI32 (maxInnerPrefix s)
  childSize : 0 < s.childSize.toInt
  bound : InI32 (s.minPrefixLength.toInt + s.childSize.toInt)
  maxPrefix : s.maxPrefixLength.toInt < s.minPrefixLength.toInt + s.childSize.toInt
  min_le : asUsize s.minPrefixLength.toInt ≤ length
  le_max : length ≤ asUsize (maxInnerPrefix s)

/-- What `ensure_inner` accepts. -/
theorem ensureInner_iff {inner : InnerOp} {spec : ProofSpec} {leafSpec : LeafOp} {s : InnerSpec}
    (hleaf : spec.leafSpec = some leafSpec) (hinner : spec.innerSpec = some s) :
    ensureInner inner spec = .ok () ↔
      inner.hash = s.hash ∧ ¬ leafSpec.prefix_ <+: inner.prefix_ ∧
        AdmitsPrefix s inner.prefix_.length ∧
        inner.suffix.length % asUsize s.childSize.toInt = 0 := by
  unfold ensureInner
  simp only [hleaf, hinner, bind_eq_ok, ensure_eq_ok, exists_const, subUsize_eq_ok, mulI32_eq_ok,
    addI32_eq_ok, remUsize_eq_ok, hasPrefix_iff]
  constructor
  · rintro ⟨hhash, hpre, hmin, _, ⟨hn, rfl⟩, _, ⟨hmul, rfl⟩, _, ⟨hsum, rfl⟩, hmax, hc, _,
      ⟨hbound, rfl⟩, hlt, _, ⟨-, rfl⟩, hrest⟩
    exact ⟨hhash, hpre, ⟨hn, hmul, hsum, hc, hbound, hlt, hmin, hmax⟩, hrest⟩
  · rintro ⟨hhash, hpre, ⟨hn, hmul, hsum, hc, hbound, hlt, hmin, hmax⟩, hrest⟩
    have hne : asUsize s.childSize.toInt ≠ 0 := by
      have := asUsize_of_nonneg hc.le
      omega
    exact ⟨hhash, hpre, hmin, _, ⟨hn, rfl⟩, _, ⟨hmul, rfl⟩, _, ⟨hsum, rfl⟩, hmax, hc, _,
      ⟨hbound, rfl⟩, hlt, _, ⟨hne, rfl⟩, hrest⟩

/-- Nothing is accepted unless the spec has both parts. -/
theorem specs_of_ensureInner {inner : InnerOp} {spec : ProofSpec}
    (h : ensureInner inner spec = .ok ()) :
    (∃ leafSpec, spec.leafSpec = some leafSpec) ∧ ∃ s, spec.innerSpec = some s := by
  unfold ensureInner at h
  split at h
  case h_1 leafSpec s hleaf hinner => exact ⟨⟨leafSpec, hleaf⟩, s, hinner⟩
  case h_2 => contradiction

/-! ### Arithmetic -/

section Arithmetic

variable {α : Type}

theorem noPanic_subUsize_bind_iff {a b : ℕ} {f : ℕ → Result α} :
    NoPanic (subUsize a b >>= f) ↔ b ≤ a ∧ NoPanic (f (a - b)) := noPanic_guard_bind_iff

theorem noPanic_addI32_bind_iff {a b : ℤ} {f : ℤ → Result α} :
    NoPanic (addI32 a b >>= f) ↔ InI32 (a + b) ∧ NoPanic (f (a + b)) := noPanic_guard_bind_iff

theorem noPanic_mulI32_bind_iff {a b : ℤ} {f : ℤ → Result α} :
    NoPanic (mulI32 a b >>= f) ↔ InI32 (a * b) ∧ NoPanic (f (a * b)) := noPanic_guard_bind_iff

end Arithmetic

/-- The arithmetic of `ensure_inner` on a prefix of the given length stays in the range of its
types. -/
structure ArithmeticFits (s : InnerSpec) (length : ℕ) : Prop where
  branches : 1 ≤ s.childOrder.length
  product : InI32 (asI32 (s.childOrder.length - 1) * s.childSize.toInt)
  sum : InI32 (maxInnerPrefix s)
  bound : length ≤ asUsize (maxInnerPrefix s) → 0 < s.childSize.toInt →
    InI32 (s.minPrefixLength.toInt + s.childSize.toInt)

/-- A spec under which a prefix may have some length has no other overflow either. -/
theorem AdmitsPrefix.arithmeticFits {s : InnerSpec} {m : ℕ} (h : AdmitsPrefix s m) (n : ℕ) :
    ArithmeticFits s n := ⟨h.branches, h.product, h.sum, fun _ _ => h.bound⟩

theorem ensureInner_noPanic_iff {inner : InnerOp} {spec : ProofSpec} {leafSpec : LeafOp}
    {s : InnerSpec} (hleaf : spec.leafSpec = some leafSpec) (hinner : spec.innerSpec = some s) :
    NoPanic (ensureInner inner spec) ↔
      (inner.hash = s.hash → ¬ leafSpec.prefix_ <+: inner.prefix_ →
        asUsize s.minPrefixLength.toInt ≤ inner.prefix_.length →
          ArithmeticFits s inner.prefix_.length) := by
  have hrem (n : ℕ) (hc : 0 < s.childSize.toInt) :
      NoPanic (remUsize n (asUsize s.childSize.toInt) >>= fun rest =>
        ensure (rest = 0) "InnerOp suffix malformed") := by
    have hcast := asUsize_of_nonneg hc.le
    rw [remUsize_eq (by omega), ok_bind]
    exact noPanic_ensure _ _
  unfold ensureInner
  simp only [hleaf, hinner, noPanic_ensure_bind_iff, noPanic_subUsize_bind_iff,
    noPanic_mulI32_bind_iff, noPanic_addI32_bind_iff, hasPrefix_iff]
  constructor
  · intro h hhash hpre hmin
    obtain ⟨hn, hmul, hsum, hbound⟩ := h hhash hpre hmin
    exact ⟨hn, hmul, hsum, fun hmax hc => (hbound hmax hc).1⟩
  · intro h hhash hpre hmin
    have hfits := h hhash hpre hmin
    exact ⟨hfits.branches, hfits.product, hfits.sum, fun hmax hc =>
      ⟨hfits.bound hmax hc, fun _ => hrem _ hc⟩⟩

end Ics23.Rust
