import Ics23.Rust.SerdeRoundTrip

/-!
# Which messages can be serialized

`Valid` says that all enumeration fields of a message hold numbers of variants.  These are the
messages that can be serialized (`serialize_iff`), and a message that was read is one of them,
whatever the format (`valid_of_deserialize`).
-/

namespace Ics23.Rust.Serde

open Outcome Visitor

variable {V : Type} {F : Format V}

/-! ## Success -/

/-- The computation returns. -/
def Succeeds {α : Type} (x : Result α) : Prop := ∃ a, x = .ok a

theorem succeeds_map {α β : Type} {x : Result α} {f : α → β} :
    Succeeds (x >>= fun a => pure (f a)) ↔ Succeeds x := by
  simp [Succeeds, bind_eq_ok]

theorem succeeds_bind {α β : Type} {x : Result α} {f : α → Result β} {p : Prop}
    (h : ∀ a, Succeeds (f a) ↔ p) : Succeeds (x >>= f) ↔ Succeeds x ∧ p := by
  constructor
  · rintro ⟨b, hb⟩
    obtain ⟨a, ha, hb⟩ := bind_eq_ok.1 hb
    exact ⟨⟨a, ha⟩, (h a).1 ⟨b, hb⟩⟩
  · rintro ⟨⟨a, ha⟩, hp⟩
    obtain ⟨b, hb⟩ := (h a).2 hp
    exact ⟨b, bind_eq_ok.2 ⟨a, ha, hb⟩⟩

section Fields

variable {α : Type} {serialize : α → Result V} {name : String}

theorem enumField_succeeds {E : Enumeration α} (EL : E.Lawful) {x : Int32} :
    Succeeds (enumField F E name x) ↔ E.Valid x := by
  unfold enumField Enumeration.Valid
  by_cases hx : x = 0
  · rw [if_pos hx, hx]
    exact iff_of_true ⟨_, rfl⟩ EL.zero
  · rw [if_neg hx]
    cases E.tryFrom x <;> simp [Succeeds]

theorem optionField_succeeds {p : α → Prop} (h : ∀ x, Succeeds (serialize x) ↔ p x)
    {x : Option α} : Succeeds (optionField serialize name x) ↔ ∀ y ∈ x, p y := by
  cases x with
  | none => exact iff_of_true ⟨_, rfl⟩ (by simp)
  | some x =>
    rw [optionField, memberField, succeeds_map, h]
    simp

theorem mapM_succeeds {p : α → Prop} (h : ∀ x, Succeeds (serialize x) ↔ p x) {xs : List α} :
    Succeeds (xs.mapM serialize) ↔ ∀ x ∈ xs, p x := by
  induction xs with
  | nil => exact iff_of_true ⟨_, rfl⟩ (by simp)
  | cons x xs ih =>
    rw [List.mapM_cons, succeeds_bind fun _ => succeeds_map, h, ih, List.forall_mem_cons]

theorem vecField_succeeds {p : α → Prop} (h : ∀ x, Succeeds (serialize x) ↔ p x) {xs : List α} :
    Succeeds (vecField F serialize name xs) ↔ ∀ x ∈ xs, p x := by
  unfold vecField
  by_cases hxs : xs = []
  · rw [if_neg (not_not.2 hxs), hxs]
    exact iff_of_true ⟨_, rfl⟩ (by simp)
  · rw [if_pos hxs, succeeds_map, mapM_succeeds h]

end Fields

/-! ## Values that were read -/

section Read

variable {α β : Type} {deserialize : V → Result α} {p : α → Prop} {v : V}

theorem valid_of_readEnum {E : Enumeration α} (EL : E.Lawful) {x : Int32}
    (h : readEnum F E v = .ok (some x)) : E.Valid x := by
  simp only [readEnum, bind_eq_ok, pure_eq, Outcome.ok.injEq, Option.some.injEq] at h
  obtain ⟨op, -, rfl⟩ := h
  exact ⟨op, (EL.tryFrom_iff _ op).2 rfl⟩

theorem of_readOption (h : ∀ v x, deserialize v = .ok x → p x) {x : α}
    (hx : readOption F deserialize v = .ok (some x)) : p x := by
  unfold readOption at hx
  obtain ⟨found, -, hx⟩ := bind_eq_ok.1 hx
  cases found with
  | none => simp at hx
  | some v =>
    obtain ⟨y, hy, hx⟩ := bind_eq_ok.1 hx
    obtain rfl : y = x := by simpa using hx
    exact h v y hy

theorem of_mapM (h : ∀ v x, deserialize v = .ok x → p x) {vs : List V} {xs : List α}
    (hxs : vs.mapM deserialize = .ok xs) : ∀ x ∈ xs, p x := by
  induction vs generalizing xs with
  | nil =>
    obtain rfl : [] = xs := by simpa using hxs
    simp
  | cons v vs ih =>
    simp only [List.mapM_cons, bind_eq_ok, pure_eq, Outcome.ok.injEq] at hxs
    obtain ⟨x, hx, xs, hxs, rfl⟩ := hxs
    exact List.forall_mem_cons.2 ⟨h v x hx, ih hxs⟩

theorem of_readVec (h : ∀ v x, deserialize v = .ok x → p x) {xs : List α}
    (hxs : readVec F deserialize v = .ok (some xs)) : ∀ x ∈ xs, p x := by
  simp only [readVec, bind_eq_ok, pure_eq, Outcome.ok.injEq, Option.some.injEq] at hxs
  obtain ⟨vs, -, ys, hys, rfl⟩ := hxs
  exact of_mapM h hys

theorem of_readMember {member : α → β} (h : ∀ v x, deserialize v = .ok x → p x) {y : β}
    (hy : readMember F deserialize member v = .ok (some y)) : ∃ x, y = member x ∧ p x := by
  simp only [readMember, bind_eq_ok, pure_eq, Outcome.ok.injEq, Option.map_eq_some_iff] at hy
  obtain ⟨found, hfound, x, rfl, rfl⟩ := hy
  exact ⟨x, rfl, of_readOption h hfound⟩

theorem of_unwrapOrDefault [Inhabited α] {x : Option α} (h : ∀ y ∈ x, p y) (hp : p default) :
    p (unwrapOrDefault α x) := by
  cases x with
  | none => exact hp
  | some x => exact h x rfl

end Read

/-! ## Operations and specs -/

/-- All enumeration fields hold numbers of variants. -/
def LeafOp.Valid (m : LeafOp) : Prop :=
  HashOp.enumeration.Valid m.hash ∧ HashOp.enumeration.Valid m.prehashKey ∧
    HashOp.enumeration.Valid m.prehashValue ∧ LengthOp.enumeration.Valid m.length

theorem LeafOp.serialize_iff (m : LeafOp) :
    Succeeds (LeafOp.serialize F m) ↔ LeafOp.Valid m := by
  unfold LeafOp.serialize LeafOp.Valid
  rw [succeeds_bind fun _ => succeeds_bind fun _ => succeeds_bind fun _ => succeeds_map]
  simp only [enumField_succeeds HashOp.lawful, enumField_succeeds LengthOp.lawful]

variable (F) in
def LeafOp.SlotValid (f : (LeafOp.visitor F).Slot) (x : (LeafOp.visitor F).Value f) : Prop :=
  match f with
  | .hash => HashOp.enumeration.Valid x
  | .prehashKey => HashOp.enumeration.Valid x
  | .prehashValue => HashOp.enumeration.Valid x
  | .length => LengthOp.enumeration.Valid x
  | .prefix_ => True

theorem LeafOp.valid_of_deserialize (v : V) (m : LeafOp) (h : LeafOp.deserialize F v = .ok m) :
    LeafOp.Valid m := by
  simp only [LeafOp.deserialize, bind_eq_ok, pure_eq, Outcome.ok.injEq] at h
  obtain ⟨es, -, s, hs, rfl⟩ := h
  have hslots := visit_forall (P := LeafOp.SlotValid F) (fun f v x hx => by
    cases f with
    | hash => exact valid_of_readEnum HashOp.lawful hx
    | prehashKey => exact valid_of_readEnum HashOp.lawful hx
    | prehashValue => exact valid_of_readEnum HashOp.lawful hx
    | length => exact valid_of_readEnum LengthOp.lawful hx
    | prefix_ => trivial) (fun _ _ hx => by simp [empty] at hx) hs
  exact ⟨of_unwrapOrDefault (hslots .hash) HashOp.lawful.zero,
    of_unwrapOrDefault (hslots .prehashKey) HashOp.lawful.zero,
    of_unwrapOrDefault (hslots .prehashValue) HashOp.lawful.zero,
    of_unwrapOrDefault (hslots .length) LengthOp.lawful.zero⟩

def InnerOp.Valid (m : InnerOp) : Prop := HashOp.enumeration.Valid m.hash

theorem InnerOp.serialize_iff (m : InnerOp) :
    Succeeds (InnerOp.serialize F m) ↔ InnerOp.Valid m := by
  unfold InnerOp.serialize InnerOp.Valid
  rw [succeeds_map, enumField_succeeds HashOp.lawful]

variable (F) in
def InnerOp.SlotValid (f : (InnerOp.visitor F).Slot) (x : (InnerOp.visitor F).Value f) : Prop :=
  match f with
  | .hash => HashOp.enumeration.Valid x
  | _ => True

theorem InnerOp.valid_of_deserialize (v : V) (m : InnerOp) (h : InnerOp.deserialize F v = .ok m) :
    InnerOp.Valid m := by
  simp only [InnerOp.deserialize, bind_eq_ok, pure_eq, Outcome.ok.injEq] at h
  obtain ⟨es, -, s, hs, rfl⟩ := h
  have hslots := visit_forall (P := InnerOp.SlotValid F) (fun f v x hx => by
    cases f with
    | hash => exact valid_of_readEnum HashOp.lawful hx
    | prefix_ => trivial
    | suffix => trivial) (fun _ _ hx => by simp [empty] at hx) hs
  exact of_unwrapOrDefault (hslots .hash) HashOp.lawful.zero

def InnerSpec.Valid (m : InnerSpec) : Prop := HashOp.enumeration.Valid m.hash

theorem InnerSpec.serialize_iff (m : InnerSpec) :
    Succeeds (InnerSpec.serialize F m) ↔ InnerSpec.Valid m := by
  unfold InnerSpec.serialize InnerSpec.Valid
  rw [succeeds_map, enumField_succeeds HashOp.lawful]

variable (F) in
def InnerSpec.SlotValid (f : (InnerSpec.visitor F).Slot) (x : (InnerSpec.visitor F).Value f) :
    Prop :=
  match f with
  | .hash => HashOp.enumeration.Valid x
  | _ => True

theorem InnerSpec.valid_of_deserialize (v : V) (m : InnerSpec)
    (h : InnerSpec.deserialize F v = .ok m) : InnerSpec.Valid m := by
  simp only [InnerSpec.deserialize, bind_eq_ok, pure_eq, Outcome.ok.injEq] at h
  obtain ⟨es, -, s, hs, rfl⟩ := h
  have hslots := visit_forall (P := InnerSpec.SlotValid F) (fun f v x hx => by
    cases f with
    | hash => exact valid_of_readEnum HashOp.lawful hx
    | _ => trivial) (fun _ _ hx => by simp [empty] at hx) hs
  exact of_unwrapOrDefault (hslots .hash) HashOp.lawful.zero

def ProofSpec.Valid (m : ProofSpec) : Prop :=
  (∀ leaf ∈ m.leafSpec, LeafOp.Valid leaf) ∧ ∀ inner ∈ m.innerSpec, InnerSpec.Valid inner

theorem ProofSpec.serialize_iff (m : ProofSpec) :
    Succeeds (ProofSpec.serialize F m) ↔ ProofSpec.Valid m := by
  unfold ProofSpec.serialize ProofSpec.Valid
  rw [succeeds_bind fun _ => succeeds_map, optionField_succeeds LeafOp.serialize_iff,
    optionField_succeeds InnerSpec.serialize_iff]

variable (F) in
def ProofSpec.SlotValid (f : (ProofSpec.visitor F).Slot) (x : (ProofSpec.visitor F).Value f) :
    Prop :=
  match f with
  | .leafSpec => LeafOp.Valid x
  | .innerSpec => InnerSpec.Valid x
  | _ => True

theorem ProofSpec.valid_of_deserialize (v : V) (m : ProofSpec)
    (h : ProofSpec.deserialize F v = .ok m) : ProofSpec.Valid m := by
  simp only [ProofSpec.deserialize, bind_eq_ok, pure_eq, Outcome.ok.injEq] at h
  obtain ⟨es, -, s, hs, rfl⟩ := h
  have hslots := visit_forall (P := ProofSpec.SlotValid F) (fun f v x hx => by
    cases f with
    | leafSpec => exact of_readOption LeafOp.valid_of_deserialize hx
    | innerSpec => exact of_readOption InnerSpec.valid_of_deserialize hx
    | _ => trivial) (fun _ _ hx => by simp [empty] at hx) hs
  exact ⟨hslots .leafSpec, hslots .innerSpec⟩

/-! ## Existence and non-existence -/

def ExistenceProof.Valid (m : ExistenceProof) : Prop :=
  (∀ leaf ∈ m.leaf, LeafOp.Valid leaf) ∧ ∀ op ∈ m.path, InnerOp.Valid op

theorem ExistenceProof.serialize_iff (m : ExistenceProof) :
    Succeeds (ExistenceProof.serialize F m) ↔ ExistenceProof.Valid m := by
  unfold ExistenceProof.serialize ExistenceProof.Valid
  rw [succeeds_bind fun _ => succeeds_map, optionField_succeeds LeafOp.serialize_iff,
    vecField_succeeds InnerOp.serialize_iff]

variable (F) in
/-- The leaf is valid, and so are the steps in the sense of `p`. -/
def existSlotValid {α : Type} {readStep : V → Result α} (p : α → Prop)
    (f : (existVisitor F readStep).Slot) (x : (existVisitor F readStep).Value f) : Prop :=
  match f with
  | .leaf => LeafOp.Valid x
  | .path => ∀ op ∈ x, p op
  | _ => True

theorem existSlotValid_of_visit {α : Type} {readStep : V → Result α} {p : α → Prop}
    (h : ∀ v x, readStep v = .ok x → p x) {es : List (String × V)}
    {s : (existVisitor F readStep).Slots}
    (hs : (existVisitor F readStep).visit (existVisitor F readStep).empty es = .ok s) :
    ∀ f, ∀ x ∈ s f, existSlotValid F p f x :=
  visit_forall (P := existSlotValid F p) (fun f v x hx => by
    cases f with
    | leaf => exact of_readOption LeafOp.valid_of_deserialize hx
    | path => exact of_readVec h hx
    | _ => trivial) (fun _ _ hx => by simp [empty] at hx) hs

theorem ExistenceProof.valid_of_deserialize (v : V) (m : ExistenceProof)
    (h : ExistenceProof.deserialize F v = .ok m) : ExistenceProof.Valid m := by
  simp only [ExistenceProof.deserialize, bind_eq_ok, pure_eq, Outcome.ok.injEq] at h
  obtain ⟨es, -, s, hs, rfl⟩ := h
  have hslots := existSlotValid_of_visit InnerOp.valid_of_deserialize hs
  exact ⟨hslots .leaf, of_unwrapOrDefault (hslots .path) (List.forall_mem_nil _)⟩

def CompressedExistenceProof.Valid (m : CompressedExistenceProof) : Prop :=
  ∀ leaf ∈ m.leaf, LeafOp.Valid leaf

theorem CompressedExistenceProof.serialize_iff (m : CompressedExistenceProof) :
    Succeeds (CompressedExistenceProof.serialize F m) ↔ CompressedExistenceProof.Valid m := by
  unfold CompressedExistenceProof.serialize CompressedExistenceProof.Valid
  rw [succeeds_map, optionField_succeeds LeafOp.serialize_iff]

theorem CompressedExistenceProof.valid_of_deserialize (v : V) (m : CompressedExistenceProof)
    (h : CompressedExistenceProof.deserialize F v = .ok m) : CompressedExistenceProof.Valid m := by
  simp only [CompressedExistenceProof.deserialize, bind_eq_ok, pure_eq, Outcome.ok.injEq] at h
  obtain ⟨es, -, s, hs, rfl⟩ := h
  exact existSlotValid_of_visit (p := fun _ => True) (fun _ _ _ => trivial) hs .leaf

variable (F) in
/-- Both sides are valid in the sense of `p`. -/
def sidesSlotValid {α : Type} {readSide : V → Result α} (p : α → Prop)
    (f : (sidesVisitor F readSide).Slot) (x : (sidesVisitor F readSide).Value f) : Prop :=
  match f with
  | .key => True
  | .left => p x
  | .right => p x

theorem sidesSlotValid_of_visit {α : Type} {readSide : V → Result α} {p : α → Prop}
    (h : ∀ v x, readSide v = .ok x → p x) {es : List (String × V)}
    {s : (sidesVisitor F readSide).Slots}
    (hs : (sidesVisitor F readSide).visit (sidesVisitor F readSide).empty es = .ok s) :
    ∀ f, ∀ x ∈ s f, sidesSlotValid F p f x :=
  visit_forall (P := sidesSlotValid F p) (fun f v x hx => by
    cases f with
    | key => trivial
    | left => exact of_readOption h hx
    | right => exact of_readOption h hx) (fun _ _ hx => by simp [empty] at hx) hs

def NonExistenceProof.Valid (m : NonExistenceProof) : Prop :=
  (∀ ex ∈ m.left, ExistenceProof.Valid ex) ∧ ∀ ex ∈ m.right, ExistenceProof.Valid ex

theorem NonExistenceProof.serialize_iff (m : NonExistenceProof) :
    Succeeds (NonExistenceProof.serialize F m) ↔ NonExistenceProof.Valid m := by
  unfold NonExistenceProof.serialize NonExistenceProof.Valid
  rw [succeeds_bind fun _ => succeeds_map, optionField_succeeds ExistenceProof.serialize_iff,
    optionField_succeeds ExistenceProof.serialize_iff]

theorem NonExistenceProof.valid_of_deserialize (v : V) (m : NonExistenceProof)
    (h : NonExistenceProof.deserialize F v = .ok m) : NonExistenceProof.Valid m := by
  simp only [NonExistenceProof.deserialize, bind_eq_ok, pure_eq, Outcome.ok.injEq] at h
  obtain ⟨es, -, s, hs, rfl⟩ := h
  have hslots := sidesSlotValid_of_visit ExistenceProof.valid_of_deserialize hs
  exact ⟨hslots .left, hslots .right⟩

def CompressedNonExistenceProof.Valid (m : CompressedNonExistenceProof) : Prop :=
  (∀ ex ∈ m.left, CompressedExistenceProof.Valid ex) ∧
    ∀ ex ∈ m.right, CompressedExistenceProof.Valid ex

theorem CompressedNonExistenceProof.serialize_iff (m : CompressedNonExistenceProof) :
    Succeeds (CompressedNonExistenceProof.serialize F m) ↔
      CompressedNonExistenceProof.Valid m := by
  unfold CompressedNonExistenceProof.serialize CompressedNonExistenceProof.Valid
  rw [succeeds_bind fun _ => succeeds_map,
    optionField_succeeds CompressedExistenceProof.serialize_iff,
    optionField_succeeds CompressedExistenceProof.serialize_iff]

theorem CompressedNonExistenceProof.valid_of_deserialize (v : V) (m : CompressedNonExistenceProof)
    (h : CompressedNonExistenceProof.deserialize F v = .ok m) :
    CompressedNonExistenceProof.Valid m := by
  simp only [CompressedNonExistenceProof.deserialize, bind_eq_ok, pure_eq, Outcome.ok.injEq] at h
  obtain ⟨es, -, s, hs, rfl⟩ := h
  have hslots := sidesSlotValid_of_visit CompressedExistenceProof.valid_of_deserialize hs
  exact ⟨hslots .left, hslots .right⟩

/-! ## Batches and proofs -/

theorem memberField_succeeds {α : Type} {serialize : α → Result V} {name : String} {x : α} :
    Succeeds (memberField serialize name x) ↔ Succeeds (serialize x) := succeeds_map

def BatchEntry.Valid (m : BatchEntry) : Prop :=
  match m with
  | .exist ex => ExistenceProof.Valid ex
  | .nonexist non => NonExistenceProof.Valid non
  | .none => True

theorem BatchEntry.serialize_iff (m : BatchEntry) :
    Succeeds (BatchEntry.serialize F m) ↔ BatchEntry.Valid m := by
  unfold BatchEntry.serialize
  rw [succeeds_map]
  cases m with
  | exist ex => exact memberField_succeeds.trans (ExistenceProof.serialize_iff ex)
  | nonexist non => exact memberField_succeeds.trans (NonExistenceProof.serialize_iff non)
  | none => exact iff_of_true ⟨_, rfl⟩ trivial

theorem BatchEntry.valid_of_deserialize (v : V) (m : BatchEntry)
    (h : BatchEntry.deserialize F v = .ok m) : BatchEntry.Valid m := by
  simp only [BatchEntry.deserialize, bind_eq_ok, pure_eq, Outcome.ok.injEq] at h
  obtain ⟨es, -, s, hs, rfl⟩ := h
  have hslots := visit_forall (P := fun _ => BatchEntry.Valid) (fun f v x hx => by
    cases f with
    | exist =>
      obtain ⟨ex, rfl, hex⟩ := of_readMember ExistenceProof.valid_of_deserialize hx
      exact hex
    | nonexist =>
      obtain ⟨non, rfl, hnon⟩ := of_readMember NonExistenceProof.valid_of_deserialize hx
      exact hnon) (fun _ _ hx => by simp [empty] at hx) hs
  cases hmember : s () with
  | none => trivial
  | some m => exact hslots () m hmember

def BatchProof.Valid (m : BatchProof) : Prop := ∀ entry ∈ m.entries, BatchEntry.Valid entry

theorem BatchProof.serialize_iff (m : BatchProof) :
    Succeeds (BatchProof.serialize F m) ↔ BatchProof.Valid m := by
  unfold BatchProof.serialize BatchProof.Valid
  rw [succeeds_map, vecField_succeeds BatchEntry.serialize_iff]

variable (F) in
def BatchProof.SlotValid (f : (BatchProof.visitor F).Slot) (x : (BatchProof.visitor F).Value f) :
    Prop :=
  match f with
  | .entries => ∀ entry ∈ x, BatchEntry.Valid entry

theorem BatchProof.valid_of_deserialize (v : V) (m : BatchProof)
    (h : BatchProof.deserialize F v = .ok m) : BatchProof.Valid m := by
  simp only [BatchProof.deserialize, bind_eq_ok, pure_eq, Outcome.ok.injEq] at h
  obtain ⟨es, -, s, hs, rfl⟩ := h
  have hslots := visit_forall (P := BatchProof.SlotValid F) (fun f v x hx => by
    cases f with
    | entries => exact of_readVec BatchEntry.valid_of_deserialize hx)
    (fun _ _ hx => by simp [empty] at hx) hs
  exact of_unwrapOrDefault (hslots .entries) (List.forall_mem_nil _)

def CompressedBatchEntry.Valid (m : CompressedBatchEntry) : Prop :=
  match m with
  | .exist ex => CompressedExistenceProof.Valid ex
  | .nonexist non => CompressedNonExistenceProof.Valid non
  | .none => True

theorem CompressedBatchEntry.serialize_iff (m : CompressedBatchEntry) :
    Succeeds (CompressedBatchEntry.serialize F m) ↔ CompressedBatchEntry.Valid m := by
  unfold CompressedBatchEntry.serialize
  rw [succeeds_map]
  cases m with
  | exist ex => exact memberField_succeeds.trans (CompressedExistenceProof.serialize_iff ex)
  | nonexist non =>
    exact memberField_succeeds.trans (CompressedNonExistenceProof.serialize_iff non)
  | none => exact iff_of_true ⟨_, rfl⟩ trivial

theorem CompressedBatchEntry.valid_of_deserialize (v : V) (m : CompressedBatchEntry)
    (h : CompressedBatchEntry.deserialize F v = .ok m) : CompressedBatchEntry.Valid m := by
  simp only [CompressedBatchEntry.deserialize, bind_eq_ok, pure_eq, Outcome.ok.injEq] at h
  obtain ⟨es, -, s, hs, rfl⟩ := h
  have hslots := visit_forall (P := fun _ => CompressedBatchEntry.Valid) (fun f v x hx => by
    cases f with
    | exist =>
      obtain ⟨ex, rfl, hex⟩ := of_readMember CompressedExistenceProof.valid_of_deserialize hx
      exact hex
    | nonexist =>
      obtain ⟨non, rfl, hnon⟩ := of_readMember CompressedNonExistenceProof.valid_of_deserialize hx
      exact hnon) (fun _ _ hx => by simp [empty] at hx) hs
  cases hmember : s () with
  | none => trivial
  | some m => exact hslots () m hmember

def CompressedBatchProof.Valid (m : CompressedBatchProof) : Prop :=
  (∀ entry ∈ m.entries, CompressedBatchEntry.Valid entry) ∧
    ∀ op ∈ m.lookupInners, InnerOp.Valid op

theorem CompressedBatchProof.serialize_iff (m : CompressedBatchProof) :
    Succeeds (CompressedBatchProof.serialize F m) ↔ CompressedBatchProof.Valid m := by
  unfold CompressedBatchProof.serialize CompressedBatchProof.Valid
  rw [succeeds_bind fun _ => succeeds_map, vecField_succeeds CompressedBatchEntry.serialize_iff,
    vecField_succeeds InnerOp.serialize_iff]

variable (F) in
def CompressedBatchProof.SlotValid (f : (CompressedBatchProof.visitor F).Slot)
    (x : (CompressedBatchProof.visitor F).Value f) : Prop :=
  match f with
  | .entries => ∀ entry ∈ x, CompressedBatchEntry.Valid entry
  | .lookupInners => ∀ op ∈ x, InnerOp.Valid op

theorem CompressedBatchProof.valid_of_deserialize (v : V) (m : CompressedBatchProof)
    (h : CompressedBatchProof.deserialize F v = .ok m) : CompressedBatchProof.Valid m := by
  simp only [CompressedBatchProof.deserialize, bind_eq_ok, pure_eq, Outcome.ok.injEq] at h
  obtain ⟨es, -, s, hs, rfl⟩ := h
  have hslots := visit_forall (P := CompressedBatchProof.SlotValid F) (fun f v x hx => by
    cases f with
    | entries => exact of_readVec CompressedBatchEntry.valid_of_deserialize hx
    | lookupInners => exact of_readVec InnerOp.valid_of_deserialize hx)
    (fun _ _ hx => by simp [empty] at hx) hs
  exact ⟨of_unwrapOrDefault (hslots .entries) (List.forall_mem_nil _),
    of_unwrapOrDefault (hslots .lookupInners) (List.forall_mem_nil _)⟩

def CommitmentProof.Valid (m : CommitmentProof) : Prop :=
  match m with
  | .exist ex => ExistenceProof.Valid ex
  | .nonexist non => NonExistenceProof.Valid non
  | .batch b => BatchProof.Valid b
  | .compressed c => CompressedBatchProof.Valid c
  | .none => True

theorem CommitmentProof.serialize_iff (m : CommitmentProof) :
    Succeeds (CommitmentProof.serialize F m) ↔ CommitmentProof.Valid m := by
  unfold CommitmentProof.serialize
  rw [succeeds_map]
  cases m with
  | exist ex => exact memberField_succeeds.trans (ExistenceProof.serialize_iff ex)
  | nonexist non => exact memberField_succeeds.trans (NonExistenceProof.serialize_iff non)
  | batch b => exact memberField_succeeds.trans (BatchProof.serialize_iff b)
  | compressed c => exact memberField_succeeds.trans (CompressedBatchProof.serialize_iff c)
  | none => exact iff_of_true ⟨_, rfl⟩ trivial

theorem CommitmentProof.valid_of_deserialize (v : V) (m : CommitmentProof)
    (h : CommitmentProof.deserialize F v = .ok m) : CommitmentProof.Valid m := by
  simp only [CommitmentProof.deserialize, bind_eq_ok, pure_eq, Outcome.ok.injEq] at h
  obtain ⟨es, -, s, hs, rfl⟩ := h
  have hslots := visit_forall (P := fun _ => CommitmentProof.Valid) (fun f v x hx => by
    cases f with
    | exist =>
      obtain ⟨ex, rfl, hex⟩ := of_readMember ExistenceProof.valid_of_deserialize hx
      exact hex
    | nonexist =>
      obtain ⟨non, rfl, hnon⟩ := of_readMember NonExistenceProof.valid_of_deserialize hx
      exact hnon
    | batch =>
      obtain ⟨b, rfl, hb⟩ := of_readMember BatchProof.valid_of_deserialize hx
      exact hb
    | compressed =>
      obtain ⟨c, rfl, hc⟩ := of_readMember CompressedBatchProof.valid_of_deserialize hx
      exact hc) (fun _ _ hx => by simp [empty] at hx) hs
  cases hmember : s () with
  | none => trivial
  | some m => exact hslots () m hmember

end Ics23.Rust.Serde
