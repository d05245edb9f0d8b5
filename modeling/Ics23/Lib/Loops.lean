import Ics23.Lib.Reader

/-!
# Loops of readers

A reader that takes at least one element can be repeated: until it says that it is done (`loop`), or
until nothing is left (`many`).  Both are defined by recursion on the length of the string, which
bounds the number of rounds, and obey the equations of a loop that has no such bound (`loop_eq`,
`many_eq`).  A loop of readers that delimit themselves delimits itself, and what `many` makes of two
strings one after the other it makes of the first and then of the second (`many_append`).
-/

namespace Ics23.Reader

variable {σ α β : Type}

/-! ### Readers without a loop -/

/-- Read nothing. -/
def done (a : α) : Reader σ α := fun s => some (a, s)

/-- Fail. -/
def refuse : Reader σ α := fun _ => none

theorem done_selfDelimiting (a : α) : (done a : Reader σ α).SelfDelimiting := by
  intro s x rest h
  simp only [done, Option.some.injEq, Prod.mk.injEq] at h
  obtain ⟨rfl, rfl⟩ := h
  exact ⟨[], rfl, fun t => rfl⟩

theorem bind_done (p : Reader σ α) (f : α → β) : (p.bind fun x => done (f x)) = p.map f := by
  funext s
  cases hp : p s <;> simp [Reader.bind, Reader.map, done, hp]

theorem refuse_selfDelimiting : (refuse : Reader σ α).SelfDelimiting := by
  intro s x rest h
  simp [refuse] at h

theorem SelfDelimiting.ite {c : Prop} [Decidable c] {p q : Reader σ α} (hp : p.SelfDelimiting)
    (hq : q.SelfDelimiting) : (if c then p else q).SelfDelimiting := by
  split_ifs
  · exact hp
  · exact hq

theorem SelfDelimiting.length_le {p : Reader σ α} (hp : p.SelfDelimiting) {s rest : List σ} {x : α}
    (h : p s = some (x, rest)) : rest.length ≤ s.length := by
  obtain ⟨read, rfl, _⟩ := hp h
  simp

/-- Whatever is read is not empty. -/
def Progress (p : Reader σ α) : Prop := ∀ ⦃s x rest⦄, p s = some (x, rest) → rest.length < s.length

theorem Progress.bind {p : Reader σ α} (hp : p.Progress) {f : α → Reader σ β}
    (hf : ∀ a, (f a).SelfDelimiting) : (p.bind f).Progress := by
  intro s x rest h
  obtain ⟨y, s', hy, hx⟩ := bind_eq_some.1 h
  exact ((hf y).length_le hx).trans_lt (hp hy)

/-! ### Until it is done -/

/-- At most `k` rounds of a reader that returns what it goes on with or the result. -/
def loopFuel (step : α → Reader σ (α ⊕ β)) : ℕ → α → Reader σ β
  | 0, _, _ => none
  | k + 1, a, s =>
    match step a s with
    | none => none
    | some (.inl a', rest) => loopFuel step k a' rest
    | some (.inr b, rest) => some (b, rest)

/-- Rounds of a reader until it returns a result. -/
def loop (step : α → Reader σ (α ⊕ β)) (a : α) : Reader σ β := fun s =>
  loopFuel step s.length a s

section Loop

variable {step : α → Reader σ (α ⊕ β)} (progress : ∀ a, (step a).Progress)

include progress

theorem loopFuel_succ {k : ℕ} {a : α} {s : List σ} (h : s.length ≤ k) :
    loopFuel step (k + 1) a s = loopFuel step k a s := by
  induction k generalizing a s with
  | zero =>
    obtain rfl := List.length_eq_zero_iff.1 (Nat.le_zero.1 h)
    have hnone : step a [] = none := by
      by_contra hsome
      obtain ⟨⟨x, rest⟩, hx⟩ := Option.ne_none_iff_exists'.1 hsome
      exact absurd (progress a hx) (by simp)
    simp [loopFuel, hnone]
  | succ k ih =>
    rw [loopFuel, loopFuel]
    cases hstep : step a s with
    | none => rfl
    | some x =>
      obtain ⟨_ | _, rest⟩ := x
      · exact ih (by have := progress a hstep; omega)
      · rfl

/-- No more rounds are needed than there are elements. -/
theorem loopFuel_eq_loop {k : ℕ} {a : α} {s : List σ} (h : s.length ≤ k) :
    loopFuel step k a s = loop step a s := by
  induction k, h using Nat.le_induction with
  | base => rfl
  | succ k hk ih => rw [loopFuel_succ progress hk, ih]

/-- A loop makes one round, and goes on or stops. -/
theorem loop_eq (a : α) (s : List σ) :
    loop step a s =
      match step a s with
      | none => none
      | some (.inl a', rest) => loop step a' rest
      | some (.inr b, rest) => some (b, rest) := by
  rw [← loopFuel_eq_loop progress (Nat.le_succ s.length), loopFuel]
  cases hstep : step a s with
  | none => rfl
  | some x =>
    obtain ⟨_ | _, rest⟩ := x
    · exact loopFuel_eq_loop progress (by have := progress a hstep; omega)
    · rfl

theorem loop_selfDelimiting (delimits : ∀ a, (step a).SelfDelimiting) (a : α) :
    (loop step a).SelfDelimiting := by
  intro s x rest h
  induction hn : s.length using Nat.strong_induction_on generalizing a s with
  | _ n ih =>
    rw [loop_eq progress] at h
    cases hstep : step a s with
    | none => simp [hstep] at h
    | some y =>
      obtain ⟨a' | b, r⟩ := y
      · have hlt : r.length < s.length := progress a hstep
        simp only [hstep] at h
        obtain ⟨first, rfl, hfirst⟩ := delimits a hstep
        obtain ⟨more, rfl, hmore⟩ := ih r.length (by omega) a' h rfl
        refine ⟨first ++ more, (List.append_assoc _ _ _).symm, fun t => ?_⟩
        rw [List.append_assoc, loop_eq progress, hfirst]
        exact hmore t
      · simp only [hstep, Option.some.injEq, Prod.mk.injEq] at h
        obtain ⟨rfl, rfl⟩ := h
        obtain ⟨first, rfl, hfirst⟩ := delimits a hstep
        refine ⟨first, rfl, fun t => ?_⟩
        rw [loop_eq progress, hfirst]

end Loop

/-! ### Until nothing is left -/

/-- At most `k` rounds of a reader, which end when the string is used up. -/
def manyFuel (step : α → Reader σ α) : ℕ → α → List σ → Option α
  | _, a, [] => some a
  | 0, _, _ :: _ => none
  | k + 1, a, x :: s => (step a (x :: s)).bind fun y => manyFuel step k y.1 y.2

/-- Rounds of a reader until the string is used up. -/
def many (step : α → Reader σ α) (a : α) (s : List σ) : Option α := manyFuel step s.length a s

section Many

variable {step : α → Reader σ α}

@[simp] theorem many_nil (a : α) : many step a [] = some a := rfl

variable (progress : ∀ a, (step a).Progress)

include progress

theorem manyFuel_succ {k : ℕ} {a : α} {s : List σ} (h : s.length ≤ k) :
    manyFuel step (k + 1) a s = manyFuel step k a s := by
  induction k generalizing a s with
  | zero =>
    obtain rfl := List.length_eq_zero_iff.1 (Nat.le_zero.1 h)
    simp [manyFuel]
  | succ k ih =>
    cases s with
    | nil => simp [manyFuel]
    | cons x s =>
      rw [manyFuel, manyFuel]
      cases hstep : step a (x :: s) with
      | none => rfl
      | some y => exact ih (by have := progress a hstep; omega)

theorem manyFuel_eq_many {k : ℕ} {a : α} {s : List σ} (h : s.length ≤ k) :
    manyFuel step k a s = many step a s := by
  induction k, h using Nat.le_induction with
  | base => rfl
  | succ k hk ih => rw [manyFuel_succ progress hk, ih]

/-- As long as something is left, there is one more round. -/
theorem many_eq (a : α) {s : List σ} (h : s ≠ []) :
    many step a s = (step a s).bind fun y => many step y.1 y.2 := by
  obtain ⟨x, s, rfl⟩ := List.exists_cons_of_ne_nil h
  rw [← manyFuel_eq_many progress (Nat.le_succ (x :: s).length), manyFuel]
  cases hstep : step a (x :: s) with
  | none => rfl
  | some y => exact manyFuel_eq_many progress (by have := progress a hstep; omega)

/-- One round and the rest. -/
theorem many_of_step {a a' : α} {s rest : List σ} (h : step a s = some (a', rest)) :
    many step a s = many step a' rest := by
  have hne : s ≠ [] := by
    rintro rfl
    exact absurd (progress a h) (by simp)
  rw [many_eq progress a hne, h, Option.bind_some]

/-- Two strings, one after the other. -/
theorem many_append (delimits : ∀ a, (step a).SelfDelimiting) {a a' : α} {s : List σ}
    (h : many step a s = some a') (t : List σ) : many step a (s ++ t) = many step a' t := by
  induction hn : s.length using Nat.strong_induction_on generalizing a s with
  | _ n ih =>
    cases s with
    | nil =>
      rw [many_nil, Option.some.injEq] at h
      rw [h, List.nil_append]
    | cons x s =>
      rw [many_eq progress a (List.cons_ne_nil x s)] at h
      obtain ⟨⟨b, rest⟩, hstep, hrest⟩ := Option.bind_eq_some_iff.1 h
      have hlt := progress a hstep
      rw [many_of_step progress ((delimits a).append t hstep)]
      exact ih rest.length (by omega) hrest rfl

end Many

end Ics23.Reader
