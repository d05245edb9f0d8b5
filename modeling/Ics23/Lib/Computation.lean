import Mathlib

/-!
# Computations that can fail, panic and query

`Outcome π ε α` is the result of a run: a value, an error the caller sees, or a panic that no
caller sees.  `Logged Q π ε α` adds the list of the queries the run made, which is kept also when
the run fails or panics.

The proofs never look at a log.  They use `Logged.Yields x a S`: the run `x` returns `a` and all
its queries lie in `S`.  It distributes over `>>=` (`Logged.yields_bind`), so a run is taken apart
into its steps while the set `S` stays fixed; `S = Set.univ` gives the plain statement about the
result, and `S = {q | q ∈ x.log}` the statement about the queries really made.
-/

namespace Ics23

variable {Q π ε α β γ : Type}

/-- The result of a computation. -/
inductive Outcome (π ε α : Type) where
  | ok (a : α)
  | err (e : ε)
  | panic (p : π)
  deriving DecidableEq, Repr

namespace Outcome

protected def bind (x : Outcome π ε α) (f : α → Outcome π ε β) : Outcome π ε β :=
  match x with
  | ok a => f a
  | err e => err e
  | panic p => panic p

instance : Monad (Outcome π ε) where
  pure := ok
  bind := Outcome.bind

/-- Fail with `e` unless `c` holds. -/
def ensure (c : Prop) [Decidable c] (e : ε) : Outcome π ε Unit := if c then ok () else err e

/-- Change the error, if there is one. -/
def mapErr (f : ε → ε) (x : Outcome π ε α) : Outcome π ε α :=
  match x with
  | ok a => ok a
  | err e => err (f e)
  | panic p => panic p

/-- The computation ends without a panic. -/
def NoPanic (x : Outcome π ε α) : Prop := ∀ p, x ≠ panic p

@[simp] theorem pure_eq (a : α) : (pure a : Outcome π ε α) = ok a := rfl

-- Not by `rfl`: as definitional rewrites these make the kernel evaluate what follows the bind.
@[simp] theorem ok_bind (a : α) (f : α → Outcome π ε β) : (ok a >>= f) = f a := by
  simp only [bind, Outcome.bind]

@[simp] theorem err_bind (e : ε) (f : α → Outcome π ε β) : (err e >>= f) = err e := by
  simp only [bind, Outcome.bind]

@[simp] theorem panic_bind (p : π) (f : α → Outcome π ε β) : (panic p >>= f) = panic p := by
  simp only [bind, Outcome.bind]

@[simp] theorem map_ok (f : α → β) (a : α) : f <$> (ok a : Outcome π ε α) = ok (f a) := rfl

instance : LawfulMonad (Outcome π ε) :=
  LawfulMonad.mk' _ (fun x => by cases x <;> rfl) (fun _ _ => rfl)
    (fun x _ _ => by cases x <;> rfl)

theorem bind_eq_ok {x : Outcome π ε α} {f : α → Outcome π ε β} {b : β} :
    (x >>= f) = ok b ↔ ∃ a, x = ok a ∧ f a = ok b := by
  cases x <;> simp

theorem seq_eq_ok {x : Outcome π ε Unit} {f : Unit → Outcome π ε β} {b : β} :
    (x >>= f) = ok b ↔ x = ok () ∧ f () = ok b := by
  cases x <;> simp

theorem bind_eq_panic {x : Outcome π ε α} {f : α → Outcome π ε β} {p : π} :
    (x >>= f) = panic p ↔ x = panic p ∨ ∃ a, x = ok a ∧ f a = panic p := by
  cases x <;> simp

@[simp] theorem ensure_eq_ok {c : Prop} [Decidable c] {e : ε} {u : Unit} :
    (ensure c e : Outcome π ε Unit) = ok u ↔ c := by
  unfold ensure; split_ifs with h <;> simp [h]

@[simp] theorem ensure_ne_panic {c : Prop} [Decidable c] {e : ε} {p : π} :
    (ensure c e : Outcome π ε Unit) ≠ panic p := by
  unfold ensure; split_ifs <;> simp

@[simp] theorem mapErr_eq_ok {f : ε → ε} {x : Outcome π ε α} {a : α} :
    mapErr f x = ok a ↔ x = ok a := by
  cases x <;> simp [mapErr]

@[simp] theorem mapErr_eq_panic {f : ε → ε} {x : Outcome π ε α} {p : π} :
    mapErr f x = panic p ↔ x = panic p := by
  cases x <;> simp [mapErr]

theorem noPanic_ok (a : α) : NoPanic (ok a : Outcome π ε α) := fun _ => by simp

theorem noPanic_err (e : ε) : NoPanic (err e : Outcome π ε α) := fun _ => by simp

theorem noPanic_ensure (c : Prop) [Decidable c] (e : ε) :
    NoPanic (ensure c e : Outcome π ε Unit) := fun _ => ensure_ne_panic

theorem NoPanic.mapErr {x : Outcome π ε α} (h : NoPanic x) (f : ε → ε) : NoPanic (mapErr f x) :=
  fun p hp => h p (mapErr_eq_panic.1 hp)

theorem NoPanic.of_bind {x : Outcome π ε α} {f : α → Outcome π ε β} (h : NoPanic (x >>= f)) :
    NoPanic x := by
  cases x with
  | panic p => exact absurd rfl (h p)
  | _ => intro p; simp

theorem NoPanic.bind {x : Outcome π ε α} {f : α → Outcome π ε β} (hx : NoPanic x)
    (hf : ∀ a, x = ok a → NoPanic (f a)) : NoPanic (x >>= f) := by
  intro p h
  rcases bind_eq_panic.1 h with h | ⟨a, ha, h⟩
  · exact hx p h
  · exact hf a ha p h

theorem noPanic_seq_iff {x : Outcome π ε Unit} {f : Unit → Outcome π ε β} :
    NoPanic (x >>= f) ↔ NoPanic x ∧ (x = ok () → NoPanic (f ())) := by
  cases x <;> simp [NoPanic]

/-- A check goes on only under its condition. -/
theorem noPanic_ensure_bind_iff {c : Prop} [Decidable c] {e : ε} {f : Unit → Outcome π ε β} :
    NoPanic (ensure c e >>= f) ↔ (c → NoPanic (f ())) := by
  rw [noPanic_seq_iff, and_iff_right (noPanic_ensure c e), ensure_eq_ok]

/-- An operation that panics outside its range goes on only inside it. -/
theorem noPanic_guard_bind_iff {c : Prop} [Decidable c] {a : α} {p : π}
    {f : α → Outcome π ε β} :
    NoPanic ((if c then ok a else panic p) >>= f) ↔ c ∧ NoPanic (f a) := by
  split_ifs with h <;> simp [h, NoPanic]

end Outcome

/-- A computation together with the queries it made, in order. -/
structure Logged (Q π ε α : Type) where
  out : Outcome π ε α
  log : List Q
  deriving DecidableEq, Repr

namespace Logged

protected def bind (x : Logged Q π ε α) (f : α → Logged Q π ε β) : Logged Q π ε β :=
  match x.out with
  | .ok a => ⟨(f a).out, x.log ++ (f a).log⟩
  | .err e => ⟨.err e, x.log⟩
  | .panic p => ⟨.panic p, x.log⟩

instance : Monad (Logged Q π ε) where
  pure a := ⟨.ok a, []⟩
  bind := Logged.bind

/-- A computation without queries. -/
def ofOutcome (x : Outcome π ε α) : Logged Q π ε α := ⟨x, []⟩

instance : MonadLift (Outcome π ε) (Logged Q π ε) := ⟨ofOutcome⟩

/-- Make the query `q`, whose answer is `a`. -/
def query (q : Q) (a : α) : Logged Q π ε α := ⟨.ok a, [q]⟩

/-- Whether the computation returns a value: errors are caught, panics are not. -/
def isOk (x : Logged Q π ε α) : Logged Q π ε Bool :=
  match x.out with
  | .ok _ => ⟨.ok true, x.log⟩
  | .err _ => ⟨.ok false, x.log⟩
  | .panic p => ⟨.panic p, x.log⟩

/-- Change the error, if there is one. -/
def mapErr (f : ε → ε) (x : Logged Q π ε α) : Logged Q π ε α := ⟨x.out.mapErr f, x.log⟩

/-- Go on with `a` after an error. -/
def recover (x : Logged Q π ε α) (a : α) : Logged Q π ε α :=
  match x.out with
  | .err _ => ⟨.ok a, x.log⟩
  | _ => x

/-- The run ends with the outcome `o`, all its queries lying in `S`. -/
def Ends (x : Logged Q π ε α) (o : Outcome π ε α) (S : Set Q) : Prop :=
  x.out = o ∧ ∀ q ∈ x.log, q ∈ S

/-- The run returns `a`, all its queries lying in `S`. -/
def Yields (x : Logged Q π ε α) (a : α) (S : Set Q) : Prop := x.Ends (.ok a) S

variable {S : Set Q}

theorem yields_univ_iff {x : Logged Q π ε α} {a : α} :
    x.Yields a Set.univ ↔ x.out = .ok a := by
  simp [Yields, Ends]

theorem Yields.out_eq {x : Logged Q π ε α} {a : α} (h : x.Yields a S) : x.out = .ok a := h.1

theorem Yields.unique {x : Logged Q π ε α} {a b : α} (h : x.Yields a S) (h' : x.Yields b S) :
    a = b := by
  simpa using h.1.symm.trans h'.1

@[simp] theorem yields_pure {a b : α} :
    (pure a : Logged Q π ε α).Yields b S ↔ a = b := by
  simp [Yields, Ends, pure]

@[simp] theorem yields_ofOutcome {x : Outcome π ε α} {a : α} :
    (ofOutcome x : Logged Q π ε α).Yields a S ↔ x = .ok a := by
  simp [Yields, Ends, ofOutcome]

@[simp] theorem yields_liftM {x : Outcome π ε α} {a : α} :
    (liftM x : Logged Q π ε α).Yields a S ↔ x = .ok a := yields_ofOutcome

@[simp] theorem yields_query {q : Q} {a b : α} :
    (query q a : Logged Q π ε α).Yields b S ↔ a = b ∧ q ∈ S := by
  simp [Yields, Ends, query]

theorem yields_bind {x : Logged Q π ε α} {f : α → Logged Q π ε β} {b : β} :
    (x >>= f).Yields b S ↔ ∃ a, x.Yields a S ∧ (f a).Yields b S := by
  obtain ⟨o, l⟩ := x
  cases o with
  | ok a =>
    simp only [Yields, Ends, bind, Logged.bind, List.mem_append, Outcome.ok.injEq]
    constructor
    · rintro ⟨h, hl⟩
      exact ⟨a, ⟨rfl, fun q hq => hl q (.inl hq)⟩, h, fun q hq => hl q (.inr hq)⟩
    · rintro ⟨_, ⟨rfl, hl⟩, h, hl'⟩
      exact ⟨h, fun q hq => hq.elim (hl q) (hl' q)⟩
  | err e => simp [Yields, Ends, bind, Logged.bind]
  | panic p => simp [Yields, Ends, bind, Logged.bind]

@[simp] theorem yields_mapErr {f : ε → ε} {x : Logged Q π ε α} {a : α} :
    (x.mapErr f).Yields a S ↔ x.Yields a S := by
  simp [Yields, Ends, mapErr]

/-- A step without a value, and the rest. -/
theorem yields_seq {x : Logged Q π ε Unit} {f : Unit → Logged Q π ε β} {b : β} :
    (x >>= f).Yields b S ↔ x.Yields () S ∧ (f ()).Yields b S := by
  rw [yields_bind]
  exact ⟨fun ⟨_, h⟩ => h, fun h => ⟨(), h⟩⟩

/-- A first step whose result is known. -/
theorem Yields.bind_iff {x : Logged Q π ε α} {f : α → Logged Q π ε β} {a : α} {b : β}
    (h : x.Yields a S) : (x >>= f).Yields b S ↔ (f a).Yields b S := by
  rw [yields_bind]
  exact ⟨fun ⟨a', ha', hf⟩ => ha'.unique h ▸ hf, fun hf => ⟨a, h, hf⟩⟩

theorem yields_isOk_true {x : Logged Q π ε α} :
    x.isOk.Yields true S ↔ ∃ a, x.Yields a S := by
  obtain ⟨o, l⟩ := x
  cases o <;> simp [isOk, Yields, Ends]

theorem yields_isOk_unit {x : Logged Q π ε Unit} :
    x.isOk.Yields true S ↔ x.Yields () S := by
  rw [yields_isOk_true]
  exact ⟨fun ⟨_, h⟩ => h, fun h => ⟨(), h⟩⟩

/-! ### Panics -/

/-- The run ends without a panic. -/
def NoPanic (x : Logged Q π ε α) : Prop := x.out.NoPanic

theorem NoPanic.not_ends {x : Logged Q π ε α} (h : x.NoPanic) {p : π} : ¬ x.Ends (.panic p) S :=
  fun h' => h p h'.1

theorem noPanic_pure (a : α) : (pure a : Logged Q π ε α).NoPanic := Outcome.noPanic_ok a

theorem noPanic_query (q : Q) (a : α) : (query q a : Logged Q π ε α).NoPanic :=
  Outcome.noPanic_ok a

theorem noPanic_liftM {x : Outcome π ε α} (h : x.NoPanic) :
    (liftM x : Logged Q π ε α).NoPanic := h

theorem NoPanic.bind {x : Logged Q π ε α} {f : α → Logged Q π ε β} (hx : x.NoPanic)
    (hf : ∀ a, (f a).NoPanic) : (x >>= f).NoPanic := by
  obtain ⟨o, l⟩ := x
  cases o with
  | ok a => exact hf a
  | err e => exact Outcome.noPanic_err e
  | panic p => exact absurd rfl (hx p)

theorem NoPanic.mapErr {x : Logged Q π ε α} (h : x.NoPanic) (f : ε → ε) : (x.mapErr f).NoPanic :=
  Outcome.NoPanic.mapErr h f

/-- A run that begins with a check, and panics nowhere else. -/
theorem noPanic_liftM_bind_iff {x : Outcome π ε α} {f : α → Logged Q π ε β}
    (hf : ∀ a, (f a).NoPanic) : ((liftM x : Logged Q π ε α) >>= f).NoPanic ↔ x.NoPanic := by
  refine ⟨fun h p hp => ?_, fun h => (noPanic_liftM h).bind hf⟩
  subst hp
  exact h p rfl

/-- The run returns a value. -/
def Returns (x : Logged Q π ε α) : Prop := ∃ a, x.out = .ok a

theorem Returns.noPanic {x : Logged Q π ε α} (h : x.Returns) : x.NoPanic := by
  obtain ⟨a, ha⟩ := h
  intro p hp
  rw [ha] at hp
  contradiction

theorem returns_pure (a : α) : (pure a : Logged Q π ε α).Returns := ⟨a, rfl⟩

theorem returns_query (q : Q) (a : α) : (query q a : Logged Q π ε α).Returns := ⟨a, rfl⟩

theorem Returns.bind {x : Logged Q π ε α} {f : α → Logged Q π ε β} (hx : x.Returns)
    (hf : ∀ a, (f a).Returns) : (x >>= f).Returns := by
  obtain ⟨o, l⟩ := x
  obtain ⟨a, rfl⟩ := hx
  exact hf a

/-- Once the computation before it returns, catching errors leaves a value or a panic. -/
theorem Returns.bind_or_panic {x : Logged Q π ε α} {f : α → Logged Q π ε β} (hx : x.Returns)
    (hf : ∀ a, (f a).Returns ∨ ∃ p, (f a).out = .panic p) :
    (x >>= f).Returns ∨ ∃ p, (x >>= f).out = .panic p := by
  obtain ⟨o, l⟩ := x
  obtain ⟨a, rfl⟩ := hx
  exact hf a

theorem ends_panic_liftM {x : Outcome π ε α} {p : π} :
    (liftM x : Logged Q π ε α).Ends (.panic p) S ↔ x = .panic p := by
  show (ofOutcome x).Ends _ _ ↔ _
  simp [Ends, ofOutcome]

theorem ends_panic_bind {x : Logged Q π ε α} {f : α → Logged Q π ε β} {p : π} :
    (x >>= f).Ends (.panic p) S ↔
      x.Ends (.panic p) S ∨ ∃ a, x.Yields a S ∧ (f a).Ends (.panic p) S := by
  obtain ⟨o, l⟩ := x
  cases o with
  | ok a =>
    simp only [Yields, Ends, bind, Logged.bind, List.mem_append, Outcome.ok.injEq, reduceCtorEq,
      false_and, false_or]
    constructor
    · rintro ⟨h, hl⟩
      exact ⟨a, ⟨rfl, fun q hq => hl q (.inl hq)⟩, h, fun q hq => hl q (.inr hq)⟩
    · rintro ⟨_, ⟨rfl, hl⟩, h, hl'⟩
      exact ⟨h, fun q hq => hq.elim (hl q) (hl' q)⟩
  | err e => simp [Yields, Ends, bind, Logged.bind]
  | panic p => simp [Yields, Ends, bind, Logged.bind]

theorem ends_panic_seq {x : Logged Q π ε Unit} {f : Unit → Logged Q π ε β} {p : π} :
    (x >>= f).Ends (.panic p) S ↔
      x.Ends (.panic p) S ∨ x.Yields () S ∧ (f ()).Ends (.panic p) S := by
  rw [ends_panic_bind]
  exact or_congr_right ⟨fun ⟨_, h⟩ => h, fun h => ⟨(), h⟩⟩

theorem ends_panic_isOk {x : Logged Q π ε α} {p : π} :
    x.isOk.Ends (.panic p) S ↔ x.Ends (.panic p) S := by
  obtain ⟨o, l⟩ := x
  cases o <;> simp [isOk, Ends]

/-- Caught errors leave only two outcomes: a boolean, or a panic. -/
theorem returns_or_panic_isOk (x : Logged Q π ε α) :
    x.isOk.Returns ∨ ∃ p, x.isOk.out = .panic p := by
  obtain ⟨o, l⟩ := x
  cases o <;> simp [isOk, Returns]

/-- Once errors are caught, a run without a panic returns a boolean. -/
theorem returns_isOk_iff {x : Logged Q π ε α} : x.isOk.Returns ↔ x.NoPanic := by
  obtain ⟨o, l⟩ := x
  cases o <;> simp [isOk, Returns, NoPanic, Outcome.NoPanic]

/-- If the run panics wherever `bad` holds, and returns or meets `C` elsewhere, then `bad` decides
whether it returns, up to `C`. -/
theorem returns_or_iff {x : Logged Q π ε α} {bad C : Prop} (panics : bad → ∃ p, x.out = .panic p)
    (returns : ¬ bad → x.Returns ∨ C) : ((∃ a, x.out = .ok a) ∨ C) ↔ (¬ bad ∨ C) := by
  constructor
  · rintro (⟨a, ha⟩ | hC)
    · refine .inl fun hbad => ?_
      obtain ⟨p, hp⟩ := panics hbad
      rw [ha] at hp
      contradiction
    · exact .inr hC
  · rintro (hgood | hC)
    · exact returns hgood
    · exact .inr hC

end Logged

/-! ### Collisions -/

/-- Two different elements of `S` have the same image under `f`. -/
def Collision {D : Type} (f : Q → D) (S : Set Q) : Prop :=
  ∃ a ∈ S, ∃ b ∈ S, a ≠ b ∧ f a = f b

theorem not_collision_iff {D : Type} {f : Q → D} {S : Set Q} :
    ¬ Collision f S ↔ Set.InjOn f S := by
  constructor
  · intro h a ha b hb e
    by_contra hne
    exact h ⟨a, ha, b, hb, hne, e⟩
  · rintro h ⟨a, ha, b, hb, hne, e⟩
    exact hne (h ha hb e)

theorem Collision.mono {D : Type} {f : Q → D} {S S' : Set Q} (hS : S ⊆ S')
    (h : Collision f S) : Collision f S' := by
  obtain ⟨a, ha, b, hb, hne, e⟩ := h
  exact ⟨a, hS ha, b, hS hb, hne, e⟩

end Ics23
