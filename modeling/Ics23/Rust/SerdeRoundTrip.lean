import Ics23.Rust.SerdeMessages

/-!
# Reading back what was serialized

A message is serialized if and only if all its enumeration fields hold numbers of variants, and then
it is read back as it was, from any format that keeps what it is given (`Format.Lawful`).
-/

namespace Ics23.Rust.Serde

open Outcome Visitor

variable {V : Type} {F : Format V}

/-! ## Enumerations -/

/-- A number of a variant. -/
def Enumeration.Valid {α : Type} (E : Enumeration α) (x : Int32) : Prop :=
  ∃ op, E.tryFrom x = some op

/-- Variants have numbers and names of their own, and the default is a variant. -/
structure Enumeration.Lawful {α : Type} (E : Enumeration α) : Prop where
  tryFrom_iff : ∀ x op, E.tryFrom x = some op ↔ E.asI32 op = x
  ofVariant_variant : ∀ op, E.ofVariant (E.variant op) = some op
  zero : E.Valid 0

theorem HashOp.lawful : HashOp.enumeration.Lawful where
  tryFrom_iff x op := by
    constructor
    · intro h
      simp only [HashOp.enumeration, HashOp.ofInt32] at h
      split at h
      all_goals
        rename_i hx
        cases h
        try exact Int32.toInt_inj.1 hx.symm
    · rintro rfl
      cases op <;> rfl
  ofVariant_variant op := by cases op <;> rfl
  zero := ⟨.noHash, rfl⟩

theorem LengthOp.lawful : LengthOp.enumeration.Lawful where
  tryFrom_iff x op := by
    constructor
    · intro h
      simp only [LengthOp.enumeration, LengthOp.ofInt32] at h
      split at h
      all_goals
        rename_i hx
        cases h
        try exact Int32.toInt_inj.1 hx.symm
    · rintro rfl
      cases op <;> rfl
  ofVariant_variant op := by cases op <;> rfl
  zero := ⟨.noPrefix, rfl⟩

/-! ## Fields -/

/-- The value of a field that is left out where it is the default. -/
def present {α : Type} [DecidableEq α] [Inhabited α] (x : α) : Option α :=
  if x = default then none else some x

@[simp] theorem unwrapOrDefault_present {α : Type} [DecidableEq α] [Inhabited α] (x : α) :
    unwrapOrDefault α (present x) = x := by
  unfold unwrapOrDefault present
  split_ifs with h
  · exact h.symm
  · rfl

/-- What is serialized is not null, and it is read back. -/
def RoundTrips (F : Format V) {α : Type} (serialize : α → Result V) (deserialize : V → Result α) :
    Prop :=
  ∀ x v, serialize x = .ok v → F.option v = .ok (some v) ∧ deserialize v = .ok x

/-- A field that is written unless it is the default. -/
theorem written_present {α : Type} [DecidableEq α] [Inhabited α] {read : V → Result (Option α)}
    {name : String} {x : α} {v : V} (h : x ≠ default → read v = .ok (some x)) :
    Written read name (if x = default then [] else [(name, v)]) (present x) := by
  unfold present
  split_ifs with hx
  · exact .inl ⟨rfl, rfl⟩
  · exact .inr ⟨v, rfl, h hx⟩

theorem mapM_roundTrips {α : Type} {serialize : α → Result V} {deserialize : V → Result α}
    (h : RoundTrips F serialize deserialize) {xs : List α} {vs : List V}
    (hvs : xs.mapM serialize = .ok vs) : vs.mapM deserialize = .ok xs := by
  induction xs generalizing vs with
  | nil =>
    obtain rfl : [] = vs := by simpa using hvs
    rfl
  | cons x xs ih =>
    simp only [List.mapM_cons, bind_eq_ok, pure_eq, Outcome.ok.injEq] at hvs
    obtain ⟨v, hv, vs', hvs', rfl⟩ := hvs
    rw [List.mapM_cons, (h x v hv).2, ok_bind, ih hvs', ok_bind, pure_eq]

section Lawful

variable (L : F.Lawful) {name : String} {es : List (String × V)}

include L

theorem written_enum {α : Type} {E : Enumeration α} (EL : E.Lawful) {x : Int32}
    (h : enumField F E name x = .ok es) : Written (readEnum F E) name es (present x) := by
  unfold enumField at h
  by_cases hx : x = 0
  · rw [if_pos hx] at h
    exact .inl ⟨(Outcome.ok.inj h).symm, if_pos hx⟩
  · rw [if_neg hx] at h
    cases hop : E.tryFrom x with
    | none => simp [hop] at h
    | some op =>
      rw [hop] at h
      refine .inr ⟨_, (Outcome.ok.inj h).symm, ?_⟩
      simp only [readEnum, Enumeration.deserialize, Enumeration.serialize, L.variant_str, ok_bind,
        EL.ofVariant_variant, pure_eq, (EL.tryFrom_iff x op).1 hop]
      exact congrArg _ (if_neg hx).symm

theorem written_number (x : Int32) :
    Written (readNumber F) name (numberField F name x) (present x) := by
  rw [numberField, ite_not]
  exact written_present fun _ => by rw [readNumber, L.number_int, ok_bind, pure_eq]

theorem written_bytes (b : Bytes) :
    Written (readBytes F) name (bytesField F name b) (present b) := by
  rw [bytesField, ite_not]
  exact written_present fun _ => by rw [readBytes, L.bytes_base64, ok_bind, pure_eq]

theorem written_bool (b : Bool) : Written (readBool F) name (boolField F name b) (present b) := by
  cases b with
  | false => exact .inl ⟨rfl, rfl⟩
  | true => exact .inr ⟨_, rfl, by rw [readBool, L.boolean_bool, ok_bind, pure_eq]; rfl⟩

theorem written_numbers (xs : List Int32) :
    Written (readVec F F.number) name (numbersField F name xs) (present xs) := by
  have hmap : (xs.map F.int).mapM F.number = .ok xs := by
    induction xs with
    | nil => rfl
    | cons x xs ih =>
      rw [List.map_cons, List.mapM_cons, L.number_int, ok_bind, ih, ok_bind, pure_eq]
  rw [numbersField, ite_not]
  exact written_present fun _ => by rw [readVec, L.elements_seq, ok_bind, hmap, ok_bind, pure_eq]

variable {α : Type} {serialize : α → Result V} {deserialize : V → Result α}
  (h : RoundTrips F serialize deserialize)

include h

omit L in
theorem written_option {x : Option α} (hes : optionField serialize name x = .ok es) :
    Written (readOption F deserialize) name es x := by
  cases x with
  | none => exact .inl ⟨(Outcome.ok.inj hes).symm, rfl⟩
  | some x =>
    simp only [optionField, memberField, bind_eq_ok, pure_eq, Outcome.ok.injEq] at hes
    obtain ⟨v, hv, rfl⟩ := hes
    obtain ⟨hoption, hread⟩ := h x v hv
    exact .inr ⟨v, rfl, by simp [readOption, hoption, hread]⟩

omit L in
theorem written_member {β : Type} {member : α → β} {x : α}
    (hes : memberField serialize name x = .ok es) :
    Written (readMember F deserialize member) name es (some (member x)) := by
  simp only [memberField, bind_eq_ok, pure_eq, Outcome.ok.injEq] at hes
  obtain ⟨v, hv, rfl⟩ := hes
  obtain ⟨hoption, hread⟩ := h x v hv
  exact .inr ⟨v, rfl, by simp [readMember, readOption, hoption, hread]⟩

theorem written_vec [DecidableEq α] {xs : List α} (hes : vecField F serialize name xs = .ok es) :
    Written (readVec F deserialize) name es (present xs) := by
  unfold vecField at hes
  by_cases hxs : xs = []
  · rw [if_neg (not_not.2 hxs)] at hes
    exact .inl ⟨(Outcome.ok.inj hes).symm, if_pos hxs⟩
  · rw [if_pos hxs] at hes
    simp only [bind_eq_ok, pure_eq, Outcome.ok.injEq] at hes
    obtain ⟨vs, hvs, rfl⟩ := hes
    refine .inr ⟨_, rfl, ?_⟩
    rw [readVec, L.elements_seq, ok_bind, mapM_roundTrips h hvs, ok_bind, pure_eq]
    exact congrArg _ (if_neg hxs).symm

omit h in
/-- A struct is read back from its fields. -/
theorem entries_struct (T : Visitor Panic Error V) (t : T.Slots) (fs : List T.Field)
    {parts : List (List (String × V))}
    (hparts : List.Forall₂ (fun f es => T.Writes f es (t (T.slot f))) fs parts)
    (hfs : (fs.map T.slot).Nodup) (hrest : ∀ i ∉ fs.map T.slot, t i = none) (type : String)
    (fields : List String) :
    ∃ es, F.entries type fields (F.struct type parts.flatten) = .ok es ∧
      T.visit T.empty es = .ok t := by
  obtain ⟨hnodup, hvisit⟩ := visit_flatten hparts hfs hrest
  obtain ⟨es, hes, hperm⟩ := L.entries_struct type fields _ hnodup
  exact ⟨es, hes, hvisit es hperm⟩

end Lawful

/-! ## Operations and specs -/

section Messages

variable (L : F.Lawful)

include L

variable (F) in
def LeafOp.slots (m : LeafOp) : (LeafOp.visitor F).Slots := fun f =>
  match f with
  | .hash => present m.hash
  | .prehashKey => present m.prehashKey
  | .prehashValue => present m.prehashValue
  | .length => present m.length
  | .prefix_ => present m.prefix_

theorem LeafOp.roundTrips : RoundTrips F (LeafOp.serialize F) (LeafOp.deserialize F) := by
  intro m v h
  simp only [LeafOp.serialize, bind_eq_ok, pure_eq, Outcome.ok.injEq] at h
  obtain ⟨hash, hhash, prehashKey, hkey, prehashValue, hvalue, length, hlength, rfl⟩ := h
  refine ⟨L.option_struct _ _, ?_⟩
  obtain ⟨es, hes, hvisit⟩ := entries_struct L (LeafOp.visitor F) (LeafOp.slots F m)
    [.hash, .prehashKey, .prehashValue, .length, .prefix_]
    (.cons ⟨"hash", rfl, written_enum L HashOp.lawful hhash⟩ <|
      .cons ⟨"prehashKey", rfl, written_enum L HashOp.lawful hkey⟩ <|
      .cons ⟨"prehashValue", rfl, written_enum L HashOp.lawful hvalue⟩ <|
      .cons ⟨"length", rfl, written_enum L LengthOp.lawful hlength⟩ <|
      .cons ⟨"prefix", rfl, written_bytes L m.prefix_⟩ .nil)
    (by simp) (fun f hf => by cases f <;> simp at hf) _ _
  rw [LeafOp.deserialize, hes, ok_bind, hvisit, ok_bind]
  simp [LeafOp.slots]

variable (F) in
def InnerOp.slots (m : InnerOp) : (InnerOp.visitor F).Slots := fun f =>
  match f with
  | .hash => present m.hash
  | .prefix_ => present m.prefix_
  | .suffix => present m.suffix

theorem InnerOp.roundTrips : RoundTrips F (InnerOp.serialize F) (InnerOp.deserialize F) := by
  intro m v h
  simp only [InnerOp.serialize, bind_eq_ok, pure_eq, Outcome.ok.injEq] at h
  obtain ⟨hash, hhash, rfl⟩ := h
  refine ⟨L.option_struct _ _, ?_⟩
  obtain ⟨es, hes, hvisit⟩ := entries_struct L (InnerOp.visitor F) (InnerOp.slots F m)
    [.hash, .prefix_, .suffix]
    (.cons ⟨"hash", rfl, written_enum L HashOp.lawful hhash⟩ <|
      .cons ⟨"prefix", rfl, written_bytes L m.prefix_⟩ <|
      .cons ⟨"suffix", rfl, written_bytes L m.suffix⟩ .nil)
    (by simp) (fun f hf => by cases f <;> simp at hf) _ _
  rw [InnerOp.deserialize, hes, ok_bind, hvisit, ok_bind]
  simp [InnerOp.slots]

variable (F) in
def InnerSpec.slots (m : InnerSpec) : (InnerSpec.visitor F).Slots := fun f =>
  match f with
  | .childOrder => present m.childOrder
  | .childSize => present m.childSize
  | .minPrefixLength => present m.minPrefixLength
  | .maxPrefixLength => present m.maxPrefixLength
  | .emptyChild => present m.emptyChild
  | .hash => present m.hash

theorem InnerSpec.roundTrips :
    RoundTrips F (InnerSpec.serialize F) (InnerSpec.deserialize F) := by
  intro m v h
  simp only [InnerSpec.serialize, bind_eq_ok, pure_eq, Outcome.ok.injEq] at h
  obtain ⟨hash, hhash, rfl⟩ := h
  refine ⟨L.option_struct _ _, ?_⟩
  obtain ⟨es, hes, hvisit⟩ := entries_struct L (InnerSpec.visitor F) (InnerSpec.slots F m)
    [.childOrder, .childSize, .minPrefixLength, .maxPrefixLength, .emptyChild, .hash]
    (.cons ⟨"childOrder", rfl, written_numbers L m.childOrder⟩ <|
      .cons ⟨"childSize", rfl, written_number L m.childSize⟩ <|
      .cons ⟨"minPrefixLength", rfl, written_number L m.minPrefixLength⟩ <|
      .cons ⟨"maxPrefixLength", rfl, written_number L m.maxPrefixLength⟩ <|
      .cons ⟨"emptyChild", rfl, written_bytes L m.emptyChild⟩ <|
      .cons ⟨"hash", rfl, written_enum L HashOp.lawful hhash⟩ .nil)
    (by simp) (fun f hf => by cases f <;> simp at hf) _ _
  rw [InnerSpec.deserialize, hes, ok_bind, hvisit, ok_bind]
  simp [InnerSpec.slots]

variable (F) in
def ProofSpec.slots (m : ProofSpec) : (ProofSpec.visitor F).Slots := fun f =>
  match f with
  | .leafSpec => m.leafSpec
  | .innerSpec => m.innerSpec
  | .maxDepth => present m.maxDepth
  | .minDepth => present m.minDepth
  | .prehashKeyBeforeComparison => present m.prehashKeyBeforeComparison

theorem ProofSpec.roundTrips :
    RoundTrips F (ProofSpec.serialize F) (ProofSpec.deserialize F) := by
  intro m v h
  simp only [ProofSpec.serialize, bind_eq_ok, pure_eq, Outcome.ok.injEq] at h
  obtain ⟨leafSpec, hleaf, innerSpec, hinner, rfl⟩ := h
  refine ⟨L.option_struct _ _, ?_⟩
  obtain ⟨es, hes, hvisit⟩ := entries_struct L (ProofSpec.visitor F) (ProofSpec.slots F m)
    [.leafSpec, .innerSpec, .maxDepth, .minDepth, .prehashKeyBeforeComparison]
    (.cons ⟨"leafSpec", rfl, written_option (LeafOp.roundTrips L) hleaf⟩ <|
      .cons ⟨"innerSpec", rfl, written_option (InnerSpec.roundTrips L) hinner⟩ <|
      .cons ⟨"maxDepth", rfl, written_number L m.maxDepth⟩ <|
      .cons ⟨"minDepth", rfl, written_number L m.minDepth⟩ <|
      .cons ⟨"prehashKeyBeforeComparison", rfl,
        written_bool L m.prehashKeyBeforeComparison⟩ .nil)
    (by simp) (fun f hf => by cases f <;> simp at hf) _ _
  rw [ProofSpec.deserialize, hes, ok_bind, hvisit, ok_bind]
  simp [ProofSpec.slots]

/-! ## Existence and non-existence -/

variable (F) in
def existSlots {α : Type} [DecidableEq α] (readStep : V → Result α) (key value : Bytes)
    (leaf : Option LeafOp) (path : List α) : (existVisitor F readStep).Slots := fun f =>
  match f with
  | .key => present key
  | .value => present value
  | .leaf => leaf
  | .path => present path

/-- The entries of `ExistenceProof` and of `CompressedExistenceProof`. -/
theorem entries_exist {α : Type} [DecidableEq α] {readStep : V → Result α} {key value : Bytes}
    {leaf : Option LeafOp} {path : List α} {leafEntry pathEntry : List (String × V)}
    (hleaf : optionField (LeafOp.serialize F) "leaf" leaf = .ok leafEntry)
    (hpath : Written (readVec F readStep) "path" pathEntry (present path)) (type : String) :
    ∃ es, F.entries type existFields (F.struct type
        [bytesField F "key" key, bytesField F "value" value, leafEntry, pathEntry].flatten) =
          .ok es ∧
      (existVisitor F readStep).visit (existVisitor F readStep).empty es =
        .ok (existSlots F readStep key value leaf path) :=
  entries_struct L (existVisitor F readStep) (existSlots F readStep key value leaf path)
    [.key, .value, .leaf, .path]
    (.cons ⟨"key", rfl, written_bytes L key⟩ <| .cons ⟨"value", rfl, written_bytes L value⟩ <|
      .cons ⟨"leaf", rfl, written_option (LeafOp.roundTrips L) hleaf⟩ <|
      .cons ⟨"path", rfl, hpath⟩ .nil)
    (by simp) (fun f hf => by cases f <;> simp at hf) _ _

theorem ExistenceProof.roundTrips :
    RoundTrips F (ExistenceProof.serialize F) (ExistenceProof.deserialize F) := by
  intro m v h
  simp only [ExistenceProof.serialize, bind_eq_ok, pure_eq, Outcome.ok.injEq] at h
  obtain ⟨leaf, hleaf, path, hpath, rfl⟩ := h
  refine ⟨L.option_struct _ _, ?_⟩
  obtain ⟨es, hes, hvisit⟩ := entries_exist L hleaf (written_vec L (InnerOp.roundTrips L) hpath) _
  rw [ExistenceProof.deserialize, hes, ok_bind, hvisit, ok_bind]
  simp [existSlots]

theorem CompressedExistenceProof.roundTrips :
    RoundTrips F (CompressedExistenceProof.serialize F)
      (CompressedExistenceProof.deserialize F) := by
  intro m v h
  simp only [CompressedExistenceProof.serialize, bind_eq_ok, pure_eq, Outcome.ok.injEq] at h
  obtain ⟨leaf, hleaf, rfl⟩ := h
  refine ⟨L.option_struct _ _, ?_⟩
  obtain ⟨es, hes, hvisit⟩ := entries_exist L hleaf (written_numbers L m.path) _
  rw [CompressedExistenceProof.deserialize, hes, ok_bind, hvisit, ok_bind]
  simp [existSlots]

variable (F) in
def sidesSlots {α : Type} (readSide : V → Result α) (key : Bytes) (left right : Option α) :
    (sidesVisitor F readSide).Slots := fun f =>
  match f with
  | .key => present key
  | .left => left
  | .right => right

/-- The entries of `NonExistenceProof` and of `CompressedNonExistenceProof`. -/
theorem entries_sides {α : Type} {serialize : α → Result V} {deserialize : V → Result α}
    (h : RoundTrips F serialize deserialize) {key : Bytes} {left right : Option α}
    {leftEntry rightEntry : List (String × V)}
    (hleft : optionField serialize "left" left = .ok leftEntry)
    (hright : optionField serialize "right" right = .ok rightEntry) (type : String) :
    ∃ es, F.entries type sidesFields (F.struct type
        [bytesField F "key" key, leftEntry, rightEntry].flatten) = .ok es ∧
      (sidesVisitor F deserialize).visit (sidesVisitor F deserialize).empty es =
        .ok (sidesSlots F deserialize key left right) :=
  entries_struct L (sidesVisitor F deserialize) (sidesSlots F deserialize key left right)
    [.key, .left, .right]
    (.cons ⟨"key", rfl, written_bytes L key⟩ <| .cons ⟨"left", rfl, written_option h hleft⟩ <|
      .cons ⟨"right", rfl, written_option h hright⟩ .nil)
    (by simp) (fun f hf => by cases f <;> simp at hf) _ _

theorem NonExistenceProof.roundTrips :
    RoundTrips F (NonExistenceProof.serialize F) (NonExistenceProof.deserialize F) := by
  intro m v h
  simp only [NonExistenceProof.serialize, bind_eq_ok, pure_eq, Outcome.ok.injEq] at h
  obtain ⟨left, hleft, right, hright, rfl⟩ := h
  refine ⟨L.option_struct _ _, ?_⟩
  obtain ⟨es, hes, hvisit⟩ := entries_sides L (ExistenceProof.roundTrips L) hleft hright _
  rw [NonExistenceProof.deserialize, hes, ok_bind, hvisit, ok_bind]
  simp [sidesSlots]

theorem CompressedNonExistenceProof.roundTrips :
    RoundTrips F (CompressedNonExistenceProof.serialize F)
      (CompressedNonExistenceProof.deserialize F) := by
  intro m v h
  simp only [CompressedNonExistenceProof.serialize, bind_eq_ok, pure_eq, Outcome.ok.injEq] at h
  obtain ⟨left, hleft, right, hright, rfl⟩ := h
  refine ⟨L.option_struct _ _, ?_⟩
  obtain ⟨es, hes, hvisit⟩ :=
    entries_sides L (CompressedExistenceProof.roundTrips L) hleft hright _
  rw [CompressedNonExistenceProof.deserialize, hes, ok_bind, hvisit, ok_bind]
  simp [sidesSlots]

/-! ## Batches and proofs -/

/-- The entries of a oneof: none without a member, and else one. -/
theorem entries_oneof (T : Visitor Panic Error V) [Unique T.Slot] (t : T.Slots)
    {es : List (String × V)} (h : (es = [] ∧ t = T.empty) ∨ ∃ f, T.Writes f es (t (T.slot f)))
    (type : String) (fields : List String) :
    ∃ es', F.entries type fields (F.struct type es) = .ok es' ∧ T.visit T.empty es' = .ok t := by
  rcases h with ⟨rfl, rfl⟩ | ⟨f, hf⟩
  · exact entries_struct L T T.empty [] .nil (by simp) (fun _ _ => rfl) type fields
  · have hcover (i : T.Slot) : i ∈ [f].map T.slot := by simp [Subsingleton.elim i (T.slot f)]
    simpa using entries_struct L T t [f] (.cons hf .nil) (by simp)
      (fun i hi => absurd (hcover i) hi) type fields

variable (F) in
def BatchEntry.slots (m : BatchEntry) : (BatchEntry.visitor F).Slots := fun _ =>
  match m with
  | .none => none
  | m => some m

theorem BatchEntry.roundTrips :
    RoundTrips F (BatchEntry.serialize F) (BatchEntry.deserialize F) := by
  intro m v h
  simp only [BatchEntry.serialize, bind_eq_ok, pure_eq, Outcome.ok.injEq] at h
  obtain ⟨proof, hproof, rfl⟩ := h
  have hwritten : (proof = [] ∧ BatchEntry.slots F m = (BatchEntry.visitor F).empty) ∨
      ∃ f, (BatchEntry.visitor F).Writes f proof (BatchEntry.slots F m ()) := by
    cases m with
    | exist ex =>
      exact .inr ⟨.exist, "exist", rfl, written_member (ExistenceProof.roundTrips L) hproof⟩
    | nonexist non =>
      exact .inr ⟨.nonexist, "nonexist", rfl,
        written_member (NonExistenceProof.roundTrips L) hproof⟩
    | none => exact .inl ⟨(Outcome.ok.inj hproof).symm, rfl⟩
  refine ⟨L.option_struct _ _, ?_⟩
  obtain ⟨es, hes, hvisit⟩ := entries_oneof L (BatchEntry.visitor F) _ hwritten _ entryFields
  rw [BatchEntry.deserialize, hes, ok_bind, hvisit, ok_bind]
  cases m <;> rfl

theorem BatchProof.roundTrips :
    RoundTrips F (BatchProof.serialize F) (BatchProof.deserialize F) := by
  intro m v h
  simp only [BatchProof.serialize, bind_eq_ok, pure_eq, Outcome.ok.injEq] at h
  obtain ⟨entries, hentries, rfl⟩ := h
  refine ⟨L.option_struct _ _, ?_⟩
  obtain ⟨es, hes, hvisit⟩ := entries_struct L (BatchProof.visitor F)
    (fun _ => present m.entries) [.entries]
    (.cons ⟨"entries", rfl, written_vec L (BatchEntry.roundTrips L) hentries⟩ .nil)
    (by simp) (fun f hf => by cases f; simp at hf) _ _
  rw [BatchProof.deserialize, hes, ok_bind, hvisit, ok_bind]
  simp

variable (F) in
def CompressedBatchEntry.slots (m : CompressedBatchEntry) :
    (CompressedBatchEntry.visitor F).Slots := fun _ =>
  match m with
  | .none => none
  | m => some m

theorem CompressedBatchEntry.roundTrips :
    RoundTrips F (CompressedBatchEntry.serialize F) (CompressedBatchEntry.deserialize F) := by
  intro m v h
  simp only [CompressedBatchEntry.serialize, bind_eq_ok, pure_eq, Outcome.ok.injEq] at h
  obtain ⟨proof, hproof, rfl⟩ := h
  have hwritten : (proof = [] ∧
        CompressedBatchEntry.slots F m = (CompressedBatchEntry.visitor F).empty) ∨
      ∃ f, (CompressedBatchEntry.visitor F).Writes f proof (CompressedBatchEntry.slots F m ()) := by
    cases m with
    | exist ex =>
      exact .inr ⟨.exist, "exist", rfl,
        written_member (CompressedExistenceProof.roundTrips L) hproof⟩
    | nonexist non =>
      exact .inr ⟨.nonexist, "nonexist", rfl,
        written_member (CompressedNonExistenceProof.roundTrips L) hproof⟩
    | none => exact .inl ⟨(Outcome.ok.inj hproof).symm, rfl⟩
  refine ⟨L.option_struct _ _, ?_⟩
  obtain ⟨es, hes, hvisit⟩ :=
    entries_oneof L (CompressedBatchEntry.visitor F) _ hwritten _ entryFields
  rw [CompressedBatchEntry.deserialize, hes, ok_bind, hvisit, ok_bind]
  cases m <;> rfl

variable (F) in
def CompressedBatchProof.slots (m : CompressedBatchProof) :
    (CompressedBatchProof.visitor F).Slots := fun f =>
  match f with
  | .entries => present m.entries
  | .lookupInners => present m.lookupInners

theorem CompressedBatchProof.roundTrips :
    RoundTrips F (CompressedBatchProof.serialize F) (CompressedBatchProof.deserialize F) := by
  intro m v h
  simp only [CompressedBatchProof.serialize, bind_eq_ok, pure_eq, Outcome.ok.injEq] at h
  obtain ⟨entries, hentries, lookupInners, hlookup, rfl⟩ := h
  refine ⟨L.option_struct _ _, ?_⟩
  obtain ⟨es, hes, hvisit⟩ := entries_struct L (CompressedBatchProof.visitor F)
    (CompressedBatchProof.slots F m) [.entries, .lookupInners]
    (.cons ⟨"entries", rfl, written_vec L (CompressedBatchEntry.roundTrips L) hentries⟩ <|
      .cons ⟨"lookupInners", rfl, written_vec L (InnerOp.roundTrips L) hlookup⟩ .nil)
    (by simp) (fun f hf => by cases f <;> simp at hf) _ _
  rw [CompressedBatchProof.deserialize, hes, ok_bind, hvisit, ok_bind]
  simp [CompressedBatchProof.slots]

variable (F) in
def CommitmentProof.slots (m : CommitmentProof) : (CommitmentProof.visitor F).Slots := fun _ =>
  match m with
  | .none => none
  | m => some m

theorem CommitmentProof.roundTrips :
    RoundTrips F (CommitmentProof.serialize F) (CommitmentProof.deserialize F) := by
  intro m v h
  simp only [CommitmentProof.serialize, bind_eq_ok, pure_eq, Outcome.ok.injEq] at h
  obtain ⟨proof, hproof, rfl⟩ := h
  have hwritten : (proof = [] ∧ CommitmentProof.slots F m = (CommitmentProof.visitor F).empty) ∨
      ∃ f, (CommitmentProof.visitor F).Writes f proof (CommitmentProof.slots F m ()) := by
    cases m with
    | exist ex =>
      exact .inr ⟨.exist, "exist", rfl, written_member (ExistenceProof.roundTrips L) hproof⟩
    | nonexist non =>
      exact .inr ⟨.nonexist, "nonexist", rfl,
        written_member (NonExistenceProof.roundTrips L) hproof⟩
    | batch b =>
      exact .inr ⟨.batch, "batch", rfl, written_member (BatchProof.roundTrips L) hproof⟩
    | compressed c =>
      exact .inr ⟨.compressed, "compressed", rfl,
        written_member (CompressedBatchProof.roundTrips L) hproof⟩
    | none => exact .inl ⟨(Outcome.ok.inj hproof).symm, rfl⟩
  refine ⟨L.option_struct _ _, ?_⟩
  obtain ⟨es, hes, hvisit⟩ :=
    entries_oneof L (CommitmentProof.visitor F) _ hwritten _ CommitmentProof.FIELDS
  rw [CommitmentProof.deserialize, hes, ok_bind, hvisit, ok_bind]
  cases m <;> rfl

end Messages

end Ics23.Rust.Serde
