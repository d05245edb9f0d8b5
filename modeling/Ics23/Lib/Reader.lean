import Mathlib

/-!
# Readers that delimit themselves

A reader takes a value off the beginning of a string and returns what is left.  It delimits itself
if it looks at nothing but what it takes off (`SelfDelimiting`).  Such readers can be chained, and
two strings with a common extension are read alike by them (`SelfDelimiting.agree`).
-/

namespace Ics23

/-- Functions that take a value off the beginning of a string. -/
abbrev Reader (σ α : Type) := List σ → Option (α × List σ)

namespace Reader

variable {σ α β : Type} {p : Reader σ α}

/-- Read a second value after the first. -/
def bind (p : Reader σ α) (f : α → Reader σ β) : Reader σ β := fun s =>
  (p s).bind fun y => f y.1 y.2

/-- Change the value. -/
def map (f : α → β) (p : Reader σ α) : Reader σ β := fun s => (p s).map fun y => (f y.1, y.2)

theorem bind_eq_some {f : α → Reader σ β} {s rest : List σ} {z : β} :
    p.bind f s = some (z, rest) ↔ ∃ x s', p s = some (x, s') ∧ f x s' = some (z, rest) := by
  simp [bind, Option.bind_eq_some_iff, Prod.exists]

theorem map_eq_some {f : α → β} {s rest : List σ} {z : β} :
    p.map f s = some (z, rest) ↔ ∃ x, p s = some (x, rest) ∧ f x = z := by
  simp only [map, Option.map_eq_some_iff, Prod.exists, Prod.mk.injEq]
  constructor
  · rintro ⟨x, _, hx, rfl, rfl⟩
    exact ⟨x, hx, rfl⟩
  · rintro ⟨x, hx, rfl⟩
    exact ⟨x, rest, hx, rfl, rfl⟩

/-- Whatever is read is read in the same way before any other rest. -/
def SelfDelimiting (p : Reader σ α) : Prop :=
  ∀ ⦃s x rest⦄, p s = some (x, rest) → ∃ read, s = read ++ rest ∧ ∀ t, p (read ++ t) = some (x, t)

namespace SelfDelimiting

theorem bind {f : α → Reader σ β} (hp : p.SelfDelimiting) (hf : ∀ x, (f x).SelfDelimiting) :
    (p.bind f).SelfDelimiting := by
  intro s z rest h
  obtain ⟨x, s', hx, hz⟩ := bind_eq_some.1 h
  obtain ⟨first, rfl, hfirst⟩ := hp hx
  obtain ⟨second, rfl, hsecond⟩ := hf x hz
  refine ⟨first ++ second, (List.append_assoc _ _ _).symm, fun t => ?_⟩
  rw [List.append_assoc]
  exact bind_eq_some.2 ⟨x, second ++ t, hfirst _, hsecond t⟩

theorem map {f : α → β} (hp : p.SelfDelimiting) : (p.map f).SelfDelimiting := by
  intro s z rest h
  obtain ⟨x, hx, rfl⟩ := map_eq_some.1 h
  obtain ⟨read, rfl, hread⟩ := hp hx
  exact ⟨read, rfl, fun t => map_eq_some.2 ⟨x, hread t, rfl⟩⟩

variable (hp : p.SelfDelimiting)

include hp

/-- A successful read does not depend on what follows. -/
theorem append {s rest : List σ} {x : α} (t : List σ) (h : p s = some (x, rest)) :
    p (s ++ t) = some (x, rest ++ t) := by
  obtain ⟨read, rfl, hread⟩ := hp h
  rw [List.append_assoc]
  exact hread _

/-- What is read gives the value by itself. -/
theorem split {s rest : List σ} {x : α} (h : p s = some (x, rest)) :
    ∃ read, s = read ++ rest ∧ p read = some (x, []) := by
  obtain ⟨read, hs, hread⟩ := hp h
  exact ⟨read, hs, by simpa using hread []⟩

/-- From two strings with a common extension the same is read. -/
theorem agree {s s' rest rest' t t' : List σ} {x y : α} (h : p s = some (x, rest))
    (h' : p s' = some (y, rest')) (heq : s ++ t = s' ++ t') :
    x = y ∧ ∃ read, s = read ++ rest ∧ s' = read ++ rest' := by
  obtain ⟨read, rfl, hread⟩ := hp h
  obtain ⟨read', rfl, hread'⟩ := hp h'
  rw [List.append_assoc, List.append_assoc] at heq
  have hboth : p (read ++ (rest ++ t)) = some (y, rest' ++ t') := by rw [heq, hread']
  rw [hread, Option.some.injEq, Prod.mk.injEq] at hboth
  obtain ⟨rfl, hrest⟩ := hboth
  rw [hrest] at heq
  exact ⟨rfl, read, rfl, by rw [List.append_cancel_right heq]⟩

end SelfDelimiting

end Reader

end Ics23
