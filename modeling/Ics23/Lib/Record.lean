import Ics23.Lib.Computation

/-!
# Reading records

A record is read from a list of named entries.  A `Visitor` says which field a name stands for, in
which slot the value of a field is kept, and how it is read.  A slot is filled once: a field whose
slot is full is a duplicate.  Several fields may share a slot, as the members of a union do, and the
value of an entry may be absent, which leaves its slot empty.

* `visit_eq_ok_iff`: what is read, when no two entries share a slot.
* `visit_perm`: then the order of the entries does not matter.
* `visit_forall`: what holds of all values that are read holds of all slots.
* `visit_flatten`: a record that was written is read back.
-/

namespace Ics23

open Outcome

/-- How a record is read, from entries with values in `V`. -/
structure Visitor (π ε V : Type) where
  Field : Type
  Slot : Type
  [decEq : DecidableEq Slot]
  Value : Slot → Type
  slot : Field → Slot
  recognize : String → Outcome π ε Field
  duplicate : Field → ε
  read : (f : Field) → V → Outcome π ε (Option (Value (slot f)))

namespace Visitor

attribute [instance] Visitor.decEq

variable {π ε V : Type} (T : Visitor π ε V)

/-- The slots of a record. -/
abbrev Slots : Type := (i : T.Slot) → Option (T.Value i)

def empty : T.Slots := fun _ => none

/-- Read one entry. -/
def step (s : T.Slots) (e : String × V) : Outcome π ε T.Slots := do
  let f ← T.recognize e.1
  ensure ((s (T.slot f)).isSome = false) (T.duplicate f)
  let x ← T.read f e.2
  return Function.update s (T.slot f) x

/-- Read all entries. -/
def visit : T.Slots → List (String × V) → Outcome π ε T.Slots
  | s, [] => .ok s
  | s, e :: es => T.step s e >>= fun s => visit s es

variable {T} {s t : T.Slots} {es es' : List (String × V)}

theorem step_eq_ok {e : String × V} :
    T.step s e = .ok t ↔ ∃ f, T.recognize e.1 = .ok f ∧ s (T.slot f) = none ∧
      ∃ x, T.read f e.2 = .ok x ∧ t = Function.update s (T.slot f) x := by
  unfold step
  simp only [bind_eq_ok, ensure_eq_ok, pure_eq, Outcome.ok.injEq, Option.isSome_eq_false_iff,
    Option.isNone_iff_eq_none, eq_comm (a := t)]
  constructor
  · rintro ⟨f, hf, _, hs, x, hx, ht⟩
    exact ⟨f, hf, hs, x, hx, ht⟩
  · rintro ⟨f, hf, hs, x, hx, ht⟩
    exact ⟨f, hf, (), hs, x, hx, ht⟩

/-! ### Values -/

/-- A property of all values that are read holds of all that are kept. -/
theorem visit_forall {P : (i : T.Slot) → T.Value i → Prop}
    (hread : ∀ f v x, T.read f v = .ok (some x) → P (T.slot f) x)
    (hs : ∀ i, ∀ x ∈ s i, P i x) (h : T.visit s es = .ok t) : ∀ i, ∀ x ∈ t i, P i x := by
  induction es generalizing s with
  | nil =>
    obtain rfl := Outcome.ok.inj h
    exact hs
  | cons e es ih =>
    obtain ⟨s', hstep, h⟩ := bind_eq_ok.1 h
    obtain ⟨f, -, -, x, hx, rfl⟩ := step_eq_ok.1 hstep
    refine ih (fun i y hy => ?_) h
    by_cases hi : i = T.slot f
    · subst hi
      rw [Function.update_self] at hy
      exact hread f e.2 y (hx.trans (congrArg _ hy))
    · rw [Function.update_of_ne hi] at hy
      exact hs i y hy

/-! ### Entries in any order -/

/-- Two entries are for different slots. -/
def Apart (T : Visitor π ε V) (e e' : String × V) : Prop :=
  ∀ f f', T.recognize e.1 = .ok f → T.recognize e'.1 = .ok f' → T.slot f ≠ T.slot f'

theorem Apart.symm {e e' : String × V} (h : T.Apart e e') : T.Apart e' e :=
  fun f f' hf hf' => (h f' f hf' hf).symm

/-- Every entry is read into its slot, and the other slots are left alone. -/
theorem visit_eq_ok_iff (hes : es.Pairwise T.Apart) :
    T.visit s es = .ok t ↔
      (∀ e ∈ es, ∃ f, T.recognize e.1 = .ok f ∧ s (T.slot f) = none ∧
        T.read f e.2 = .ok (t (T.slot f))) ∧
      ∀ i, (∀ e ∈ es, ∀ f, T.recognize e.1 = .ok f → T.slot f ≠ i) → t i = s i := by
  induction es generalizing s with
  | nil =>
    simp only [visit, Outcome.ok.injEq, List.not_mem_nil, false_implies, implies_true, true_and,
      forall_const]
    exact ⟨fun h i => congrFun h.symm i, fun h => (funext h).symm⟩
  | cons e es ih =>
    obtain ⟨hapart, hes⟩ := List.pairwise_cons.1 hes
    rw [visit, bind_eq_ok]
    constructor
    · rintro ⟨s', hstep, h⟩
      obtain ⟨f, hf, hempty, x, hx, rfl⟩ := step_eq_ok.1 hstep
      obtain ⟨hread, hframe⟩ := (ih hes).1 h
      have hslot : t (T.slot f) = x := by
        rw [hframe _ fun e' he' f' hf' => (hapart e' he' f f' hf hf').symm, Function.update_self]
      refine ⟨List.forall_mem_cons.2 ⟨⟨f, hf, hempty, hslot ▸ hx⟩, fun e' he' => ?_⟩,
        fun i hi => ?_⟩
      · obtain ⟨f', hf', hempty', hread'⟩ := hread e' he'
        rw [Function.update_of_ne (hapart e' he' f f' hf hf').symm] at hempty'
        exact ⟨f', hf', hempty', hread'⟩
      · obtain ⟨hi, his⟩ := List.forall_mem_cons.1 hi
        rw [hframe i his, Function.update_of_ne (hi f hf).symm]
    · rintro ⟨hread, hframe⟩
      obtain ⟨⟨f, hf, hempty, hx⟩, hread⟩ := List.forall_mem_cons.1 hread
      refine ⟨Function.update s (T.slot f) (t (T.slot f)),
        step_eq_ok.2 ⟨f, hf, hempty, _, hx, rfl⟩, (ih hes).2 ⟨fun e' he' => ?_, fun i hi => ?_⟩⟩
      · obtain ⟨f', hf', hempty', hread'⟩ := hread e' he'
        have hne : T.slot f' ≠ T.slot f := (hapart e' he' f f' hf hf').symm
        exact ⟨f', hf', (Function.update_of_ne hne _ s).trans hempty', hread'⟩
      · by_cases hif : i = T.slot f
        · rw [hif, Function.update_self]
        · rw [Function.update_of_ne hif]
          refine hframe i (List.forall_mem_cons.2 ⟨fun f' hf' => ?_, hi⟩)
          obtain rfl := Outcome.ok.inj (hf.symm.trans hf')
          exact Ne.symm hif

/-- Entries for different slots can be read in any order. -/
theorem visit_perm (h : es.Perm es') (hes : es.Pairwise T.Apart) :
    T.visit s es = .ok t ↔ T.visit s es' = .ok t := by
  have hes' : es'.Pairwise T.Apart := (h.pairwise_iff Apart.symm).1 hes
  rw [visit_eq_ok_iff hes, visit_eq_ok_iff hes']
  simp only [h.mem_iff]

/-! ### Records that were written -/

/-- The entries that a writer makes for a field: none, or one that is read as `x`. -/
def Written {α : Type} (read : V → Outcome π ε (Option α)) (name : String) (es : List (String × V))
    (x : Option α) : Prop :=
  (es = [] ∧ x = none) ∨ ∃ v, es = [(name, v)] ∧ read v = .ok x

def Writes (T : Visitor π ε V) (f : T.Field) (es : List (String × V))
    (x : Option (T.Value (T.slot f))) : Prop :=
  ∃ name, T.recognize name = .ok f ∧ Written (T.read f) name es x

section Written

variable {fs : List T.Field} {parts : List (List (String × V))}
  (h : List.Forall₂ (fun f es => T.Writes f es (t (T.slot f))) fs parts)

include h

/-- Every entry is that of a field. -/
theorem exists_field {e : String × V} (he : e ∈ parts.flatten) :
    ∃ f ∈ fs, T.recognize e.1 = .ok f ∧ T.read f e.2 = .ok (t (T.slot f)) := by
  induction h with
  | nil => simp at he
  | @cons f es fs parts hw _ ih =>
    rw [List.flatten_cons, List.mem_append] at he
    rcases he with he | he
    · obtain ⟨name, hname, ⟨rfl, -⟩ | ⟨v, rfl, hv⟩⟩ := hw
      · simp at he
      · obtain rfl := List.mem_singleton.1 he
        exact ⟨f, List.mem_cons_self, hname, hv⟩
    · obtain ⟨f', hf', hread⟩ := ih he
      exact ⟨f', List.mem_cons_of_mem _ hf', hread⟩

/-- A field without an entry has no value. -/
theorem exists_entry {f : T.Field} (hf : f ∈ fs) :
    t (T.slot f) = none ∨ ∃ e ∈ parts.flatten, T.recognize e.1 = .ok f := by
  induction h with
  | nil => simp at hf
  | @cons f' es fs parts hw _ ih =>
    rw [List.flatten_cons]
    rcases List.mem_cons.1 hf with rfl | hf
    · obtain ⟨name, hname, ⟨-, hnone⟩ | ⟨v, rfl, -⟩⟩ := hw
      · exact .inl hnone
      · exact .inr ⟨(name, v), List.mem_append_left _ List.mem_cons_self, hname⟩
    · refine (ih hf).imp_right fun ⟨e, he, hname⟩ => ?_
      exact ⟨e, List.mem_append_right _ he, hname⟩

theorem pairwise_flatten (hfs : (fs.map T.slot).Nodup) : parts.flatten.Pairwise T.Apart := by
  induction h with
  | nil => exact .nil
  | @cons f es fs parts hw hparts ih =>
    obtain ⟨hslot, hfs⟩ := List.nodup_cons.1 hfs
    rw [List.flatten_cons, List.pairwise_append]
    obtain ⟨name, hname, ⟨rfl, -⟩ | ⟨v, rfl, -⟩⟩ := hw
    · exact ⟨.nil, ih hfs, fun e he => by simp at he⟩
    · refine ⟨List.pairwise_singleton _ _, ih hfs, fun e he e' he' f₁ f₂ hf₁ hf₂ => ?_⟩
      obtain rfl := List.mem_singleton.1 he
      obtain ⟨f', hf', hname', -⟩ := exists_field hparts he'
      obtain rfl := Outcome.ok.inj (hname.symm.trans hf₁)
      obtain rfl := Outcome.ok.inj (hname'.symm.trans hf₂)
      exact fun hslots => hslot (hslots ▸ List.mem_map_of_mem hf')

/-- A record that was written has no name twice, and is read back from its entries in any order. -/
theorem visit_flatten (hfs : (fs.map T.slot).Nodup) (hrest : ∀ i ∉ fs.map T.slot, t i = none) :
    (parts.flatten.map Prod.fst).Nodup ∧
      ∀ es, parts.flatten.Perm es → T.visit T.empty es = .ok t := by
  have hpair := pairwise_flatten h hfs
  refine ⟨?_, fun es hes => (visit_perm hes hpair).1 ((visit_eq_ok_iff hpair).2 ⟨?_, ?_⟩)⟩
  · refine List.pairwise_map.2 (hpair.imp_of_mem fun {e e'} he he' hapart heq => ?_)
    obtain ⟨f, -, hf, -⟩ := exists_field h he
    exact hapart f f hf (heq ▸ hf) rfl
  · intro e he
    obtain ⟨f, -, hname, hread⟩ := exists_field h he
    exact ⟨f, hname, rfl, hread⟩
  · intro i hi
    by_cases hmem : i ∈ fs.map T.slot
    · obtain ⟨f, hf, rfl⟩ := List.mem_map.1 hmem
      rcases exists_entry h hf with hnone | ⟨e, he, hname⟩
      · exact hnone
      · exact absurd rfl (hi e he f hname)
    · exact hrest i hmem

end Written

end Visitor

end Ics23
