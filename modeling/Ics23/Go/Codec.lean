import Ics23.Go.Calculate
import Ics23.Go.RoundTrip

/-!
# The codec of the Go module

What senders and receivers of proofs can rely on.

* `Pb.CommitmentProof.unmarshal_marshal`: what `Marshal` writes, `Unmarshal` reads back.
* `Pb.CommitmentProof.unmarshal_concat`: two strings, one after the other.
* `Pb.CommitmentProof.unmarshal_skips`: fields that a later version adds are skipped.
-/

namespace Ics23.Go

open Outcome Wire

variable {M : Type} {fields : List (Int32 × Field M)} {name : String}

/-! ## Strings of fields -/

/-- The rest of a string is read into the message that its beginning gives. -/
theorem unmarshal_append (safe : ∀ field ∈ fields, field.2.Safe) {a b : Bytes}
    (h : (a ++ b).length < 2 ^ 63) {old m m' : M} (ha : unmarshal name fields old a = .ok m') :
    unmarshal name fields old (a ++ b) = .ok m ↔ unmarshal name fields m' b = .ok m := by
  have hsplit := h
  rw [List.length_append] at hsplit
  have hread := (unmarshal_eq_ok_iff (by omega) safe).1 ha
  rw [unmarshal_eq_ok_iff h safe, unmarshal_eq_ok_iff (by omega) safe,
    Fields.message_append b hread]

/-- A string after one that is read is read in both places, or in neither. -/
theorem unmarshal_append_cases (safe : ∀ field ∈ fields, field.2.Safe) {a b : Bytes}
    (h : (a ++ b).length < 2 ^ 63) {old m' : M} (ha : unmarshal name fields old a = .ok m') :
    (∃ m, unmarshal name fields old (a ++ b) = .ok m ∧ unmarshal name fields m' b = .ok m) ∨
      ∃ e e', unmarshal name fields old (a ++ b) = .err e ∧
        unmarshal name fields m' b = .err e' := by
  have hb : b.length < 2 ^ 63 := by
    rw [List.length_append] at h
    omega
  cases hboth : unmarshal name fields old (a ++ b) with
  | ok m => exact .inl ⟨m, rfl, (unmarshal_append safe h ha).1 hboth⟩
  | panic p => exact absurd hboth (unmarshal_noPanic h safe name old p)
  | err e =>
    cases hrest : unmarshal name fields m' b with
    | ok m =>
      rw [(unmarshal_append safe h ha).2 hrest] at hboth
      contradiction
    | err e' => exact .inr ⟨e, e', rfl, rfl⟩
    | panic p => exact absurd hrest (unmarshal_noPanic hb safe name m' p)

/-- Fields that are not known change nothing. -/
theorem message_unknowns {items : List Item} {m : M}
    (hunknown : ∀ item ∈ items, 0 < (item.num : ℕ) ∧ fields.lookup (int32Of item.num) = none)
    (h : (Item.encodeAll items).length < 2 ^ 64) :
    (knownFields fields).message m (Item.encodeAll items) = some m := by
  induction items with
  | nil => rfl
  | cons item items ih =>
    obtain ⟨hitem, hitems⟩ := List.forall_mem_cons.1 hunknown
    rw [Item.encodeAll, List.length_append] at h
    have hread : (knownFields fields).read item.num = none := by
      simp only [knownFields, hitem.2, Option.map_none]
    exact Fields.message_trans (Fields.message_unknown item hread hitem.1 (by omega))
      (ih hitems (by omega))

theorem unmarshal_unknown (safe : ∀ field ∈ fields, field.2.Safe) {items : List Item}
    (hunknown : ∀ item ∈ items, 0 < (item.num : ℕ) ∧ fields.lookup (int32Of item.num) = none)
    {a b : Bytes} (h : (a ++ (Item.encodeAll items ++ b)).length < 2 ^ 63) {old m m' : M}
    (ha : unmarshal name fields old a = .ok m') :
    unmarshal name fields old (a ++ (Item.encodeAll items ++ b)) = .ok m ↔
      unmarshal name fields old (a ++ b) = .ok m := by
  simp only [List.length_append] at h
  have hitems := message_unknowns (m := m') hunknown (by omega)
  rw [unmarshal_append safe (by simpa using h) ha, unmarshal_append safe (by simp; omega) ha,
    unmarshal_append safe (by simp; omega) ((unmarshal_eq_ok_iff (by omega) safe).2 hitems)]

/-! ## Normal forms -/

/-- A slice that is empty is nil. -/
def Slice.normal (s : Slice) : Slice := if s.bytes = [] then none else s

def InnerOp.normal (m : InnerOp) : InnerOp := { m with suffix := m.suffix.normal }

def ExistenceProof.normal (m : ExistenceProof) : ExistenceProof :=
  { m with key := m.key.normal, path := m.path.map InnerOp.normal }

def NonExistenceProof.normal (m : NonExistenceProof) : NonExistenceProof :=
  { m with left := m.left.map ExistenceProof.normal, right := m.right.map ExistenceProof.normal }

def BatchEntry.normal (m : BatchEntry) : BatchEntry :=
  match m with
  | .exist (some ex) => .exist (some ex.normal)
  | .nonexist (some non) => .nonexist (some non.normal)
  | _ => .none

def BatchProof.normal (m : BatchProof) : BatchProof := ⟨m.entries.map BatchEntry.normal⟩

def CompressedBatchEntry.normal (m : CompressedBatchEntry) : CompressedBatchEntry :=
  match m with
  | .exist (some ex) => .exist (some ex)
  | .nonexist (some non) => .nonexist (some non)
  | _ => .none

def CompressedBatchProof.normal (m : CompressedBatchProof) : CompressedBatchProof :=
  ⟨m.entries.map CompressedBatchEntry.normal, m.lookupInners.map InnerOp.normal⟩

/-- What is read back from the encoding of a proof. -/
def Pb.CommitmentProof.normal (m : Pb.CommitmentProof) : Pb.CommitmentProof :=
  match m with
  | .exist (some ex) => .exist (some ex.normal)
  | .nonexist (some non) => .nonexist (some non.normal)
  | .batch (some b) => .batch (some b.normal)
  | .compressed (some c) => .compressed (some c.normal)
  | _ => .none

theorem mergeInt32_zero (x : Int32) : mergeInt32 0 x = x := by
  unfold mergeInt32
  split_ifs with h
  · exact h.symm
  · rfl

theorem mergeBytes_nil (b : Bytes) : mergeBytes [] b = b := by
  unfold mergeBytes
  split_ifs with h
  · exact h.symm
  · rfl

theorem mergeOption_none {α : Type} {new : α} {merge : α → α → α} (x : Option α) :
    mergeOption new merge none x = x.map (merge new) := by
  cases x <;> rfl

theorem LeafOp.new_merge (m : LeafOp) : LeafOp.merge LeafOp.new m = m := by
  simp only [LeafOp.merge, LeafOp.new, mergeInt32_zero, mergeBytes_nil]

theorem InnerOp.new_merge (m : InnerOp) : InnerOp.new.merge m = m.normal := by
  simp only [InnerOp.merge, InnerOp.new, mergeInt32_zero, mergeBytes_nil, InnerOp.normal]
  rfl

theorem InnerSpec.new_merge (m : InnerSpec) : InnerSpec.merge InnerSpec.new m = m := by
  simp only [InnerSpec.merge, InnerSpec.new, mergeInt32_zero, mergeBytes_nil, List.nil_append]

theorem ProofSpec.new_merge (m : ProofSpec) : ProofSpec.merge ProofSpec.new m = m := by
  have hleaf : LeafOp.merge LeafOp.new = id := funext LeafOp.new_merge
  have hinner : InnerSpec.merge InnerSpec.new = id := funext InnerSpec.new_merge
  simp only [ProofSpec.merge, ProofSpec.new, mergeInt32_zero, mergeOption_none, hleaf, hinner,
    Option.map_id, id_eq, Bool.false_or]

theorem ExistenceProof.new_merge (m : ExistenceProof) : ExistenceProof.new.merge m = m.normal := by
  have hleaf : LeafOp.merge LeafOp.new = id := funext LeafOp.new_merge
  have hstep : InnerOp.new.merge = InnerOp.normal := funext InnerOp.new_merge
  simp only [ExistenceProof.merge, ExistenceProof.new, mergeBytes_nil, mergeOption_none, hleaf,
    hstep, Option.map_id, id_eq, List.nil_append]
  rfl

theorem NonExistenceProof.new_merge (m : NonExistenceProof) :
    NonExistenceProof.new.merge m = m.normal := by
  have hside : ExistenceProof.new.merge = ExistenceProof.normal := funext ExistenceProof.new_merge
  simp only [NonExistenceProof.merge, NonExistenceProof.new, mergeBytes_nil, mergeOption_none,
    hside]
  rfl

theorem BatchEntry.new_merge (m : BatchEntry) : BatchEntry.new.merge m = m.normal := by
  rcases m with (_ | ex) | (_ | non) | _
  · rfl
  · exact congrArg (fun x => BatchEntry.exist (some x)) ex.new_merge
  · rfl
  · exact congrArg (fun x => BatchEntry.nonexist (some x)) non.new_merge
  · rfl

theorem BatchProof.new_merge (m : BatchProof) : BatchProof.new.merge m = m.normal := by
  have hentry : BatchEntry.new.merge = BatchEntry.normal := funext BatchEntry.new_merge
  simp only [BatchProof.merge, BatchProof.new, hentry, List.nil_append]
  rfl

theorem CompressedExistenceProof.new_merge (m : CompressedExistenceProof) :
    CompressedExistenceProof.new.merge m = m := by
  have hleaf : LeafOp.merge LeafOp.new = id := funext LeafOp.new_merge
  simp only [CompressedExistenceProof.merge, CompressedExistenceProof.new, mergeBytes_nil,
    mergeOption_none, hleaf, Option.map_id, id_eq, List.nil_append]

theorem CompressedNonExistenceProof.new_merge (m : CompressedNonExistenceProof) :
    CompressedNonExistenceProof.new.merge m = m := by
  have hside : CompressedExistenceProof.new.merge = id :=
    funext CompressedExistenceProof.new_merge
  simp only [CompressedNonExistenceProof.merge, CompressedNonExistenceProof.new, mergeBytes_nil,
    mergeOption_none, hside, Option.map_id, id_eq]

theorem CompressedBatchEntry.new_merge (m : CompressedBatchEntry) :
    CompressedBatchEntry.new.merge m = m.normal := by
  rcases m with (_ | ex) | (_ | non) | _
  · rfl
  · exact congrArg (fun x => CompressedBatchEntry.exist (some x)) ex.new_merge
  · rfl
  · exact congrArg (fun x => CompressedBatchEntry.nonexist (some x)) non.new_merge
  · rfl

theorem CompressedBatchProof.new_merge (m : CompressedBatchProof) :
    CompressedBatchProof.new.merge m = m.normal := by
  have hentry : CompressedBatchEntry.new.merge = CompressedBatchEntry.normal :=
    funext CompressedBatchEntry.new_merge
  have hstep : InnerOp.new.merge = InnerOp.normal := funext InnerOp.new_merge
  simp only [CompressedBatchProof.merge, CompressedBatchProof.new, hentry, hstep, List.nil_append]
  rfl

namespace Pb

theorem CommitmentProof.new_merge (m : CommitmentProof) :
    CommitmentProof.new.merge m = m.normal := by
  rcases m with (_ | ex) | (_ | non) | (_ | b) | (_ | c) | _
  · rfl
  · exact congrArg (fun x => CommitmentProof.exist (some x)) ex.new_merge
  · rfl
  · exact congrArg (fun x => CommitmentProof.nonexist (some x)) non.new_merge
  · rfl
  · exact congrArg (fun x => CommitmentProof.batch (some x)) b.new_merge
  · rfl
  · exact congrArg (fun x => CommitmentProof.compressed (some x)) c.new_merge
  · rfl

end Pb

/-! ## Senders and receivers -/

/-- The encoding of a spec is as long as its size, and it is read back. -/
theorem ProofSpec.unmarshal_marshal_new (spec : ProofSpec) (h : ProofSpec.size spec < 2 ^ 63) :
    ∃ b, ProofSpec.marshal spec = .ok b ∧ b.length = ProofSpec.size spec ∧
      ProofSpec.unmarshal ProofSpec.new b = .ok spec := by
  have hlen := ProofSpec.length_wire spec
  refine ⟨ProofSpec.wire spec, marshal_eq (ProofSpec.fills spec) hlen, hlen, ?_⟩
  rw [ProofSpec.unmarshal_wire _ spec (hlen ▸ h), ProofSpec.new_merge]

theorem toInt_int32Of {n : ℕ} (h : n < 2 ^ 31) : (int32Of n).toInt = n := by
  show (BitVec.ofNat 32 n).toInt = _
  rw [BitVec.toInt_eq_toNat_cond, BitVec.toNat_ofNat, Nat.mod_eq_of_lt (by omega),
    if_pos (by omega)]

namespace Pb

/-- The encoding of a proof is as long as its size.  It is merged into the proof that is there, and
it is read back as a new proof, up to empty slices and empty members. -/
theorem CommitmentProof.unmarshal_marshal (m : CommitmentProof) (h : m.size < 2 ^ 63) :
    ∃ b, m.marshal = .ok b ∧ b.length = m.size ∧
      (∀ old : CommitmentProof, old.unmarshal b = .ok (old.merge m)) ∧
      CommitmentProof.new.unmarshal b = .ok m.normal := by
  have hlen := m.length_wire
  have hread (old : CommitmentProof) := CommitmentProof.unmarshal_wire old m (hlen ▸ h)
  refine ⟨m.wire, marshal_eq m.fills hlen, hlen, hread, ?_⟩
  rw [hread, CommitmentProof.new_merge]

theorem secondLeaf_unmarshal_marshal :
    ∃ b, (CommitmentProof.exist (some secondLeaf)).marshal = .ok b ∧
      b.length = (CommitmentProof.exist (some secondLeaf)).size ∧
      (∀ old : CommitmentProof,
        old.unmarshal b = .ok (old.merge (CommitmentProof.exist (some secondLeaf)))) ∧
      CommitmentProof.new.unmarshal b = .ok (CommitmentProof.exist (some secondLeaf)).normal :=
  CommitmentProof.unmarshal_marshal _ (by decide +kernel)

/-- A receiver survives every string. -/
theorem CommitmentProof.receiver_noPanic {b : Bytes} (h : b.length < 2 ^ 63) :
    (∀ m : CommitmentProof, (m.unmarshal b).NoPanic) ∧
      ∀ spec : ProofSpec, (ProofSpec.unmarshal spec b).NoPanic :=
  ⟨fun m => m.unmarshal_noPanic h, fun spec => Go.unmarshal_noPanic h ProofSpec.safe _ spec⟩

theorem truncated_receiver_noPanic :
    (∀ m : CommitmentProof, (m.unmarshal [10, 255]).NoPanic) ∧
      ∀ spec : ProofSpec, (ProofSpec.unmarshal spec [10, 255]).NoPanic :=
  CommitmentProof.receiver_noPanic (by decide)

/-- The rest of a string is read into the proof that its beginning gives: to the same proof, or to
an error in both cases. -/
theorem CommitmentProof.unmarshal_concat {a b : Bytes} (h : (a ++ b).length < 2 ^ 63)
    {old m' : CommitmentProof} (ha : old.unmarshal a = .ok m') :
    (∃ m, old.unmarshal (a ++ b) = .ok m ∧ m'.unmarshal b = .ok m) ∨
      ∃ e e', old.unmarshal (a ++ b) = .err e ∧ m'.unmarshal b = .err e' :=
  Go.unmarshal_append_cases CommitmentProof.safe h ha

/-- A non-existence proof after an existence proof takes its place. -/
theorem secondLeaf_unmarshal_concat :
    let first := CommitmentProof.exist (some secondLeaf)
    let second := CommitmentProof.nonexist (some ⟨[3], some secondLeaf, none⟩)
    CommitmentProof.new.unmarshal (first.wire ++ second.wire) = .ok second.normal := by
  intro first second
  have hfirst : CommitmentProof.new.unmarshal first.wire = .ok first := by decide +kernel
  have hsecond : first.unmarshal second.wire = .ok second.normal := by decide +kernel
  have hlen : (first.wire ++ second.wire).length < 2 ^ 63 := by decide +kernel
  rcases CommitmentProof.unmarshal_concat hlen hfirst with ⟨m, hm, hb⟩ | ⟨e, e', -, hb⟩
  · rw [hm, ← hb, hsecond]
  · rw [hsecond] at hb
    contradiction

theorem CommitmentProof.lookup_eq_none {num : ℕ} (h : 4 < num) (h' : num < 2 ^ 29) :
    CommitmentProof.fields.lookup (int32Of num) = Option.none := by
  have hle : ∀ field ∈ CommitmentProof.fields, field.1.toInt ≤ 4 := by decide
  refine List.lookup_eq_none_iff.2 fun field hfield => ?_
  have hnum := toInt_int32Of (n := num) (by omega)
  have := hle field hfield
  rw [bne_iff_ne, ne_eq, ← Int32.toInt_inj, hnum]
  omega

/-- Fields that a proof does not have are skipped, wherever they stand between fields it has. -/
theorem CommitmentProof.unmarshal_skips {items : List Item}
    (hunknown : ∀ item ∈ items, 4 < (item.num : ℕ)) {a b : Bytes}
    (h : (a ++ (Item.encodeAll items ++ b)).length < 2 ^ 63) {old m' : CommitmentProof}
    (ha : old.unmarshal a = .ok m') (m : CommitmentProof) :
    old.unmarshal (a ++ (Item.encodeAll items ++ b)) = .ok m ↔ old.unmarshal (a ++ b) = .ok m := by
  refine Go.unmarshal_unknown CommitmentProof.safe (fun item hitem => ?_) h ha
  have hnum := hunknown item hitem
  exact ⟨by omega, CommitmentProof.lookup_eq_none hnum item.num.isLt⟩

/-- A number and a group are skipped between an existence and a non-existence proof. -/
theorem secondLeaf_unmarshal_skips :
    let first := CommitmentProof.exist (some secondLeaf)
    let second := CommitmentProof.nonexist (some ⟨[3], some secondLeaf, none⟩)
    let items : List Item := [.varint 5 7, .group 6 [.fixed32 1 2]]
    CommitmentProof.new.unmarshal (first.wire ++ (Item.encodeAll items ++ second.wire)) =
      .ok second.normal := by
  intro first second items
  have hfirst : CommitmentProof.new.unmarshal first.wire = .ok first := by decide +kernel
  have hsecond : CommitmentProof.new.unmarshal (first.wire ++ second.wire) = .ok second.normal := by
    decide +kernel
  have hlen : (first.wire ++ (Item.encodeAll items ++ second.wire)).length < 2 ^ 63 := by
    decide +kernel
  exact (CommitmentProof.unmarshal_skips (by decide) hlen hfirst _).2 hsecond

end Pb

end Ics23.Go
