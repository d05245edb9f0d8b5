import Ics23.Go.Marshal
import Ics23.Go.Reading

/-!
# Round trips

What the `Unmarshal` methods of `proofs.pb.go` make of encodings.  An encoding is merged into the
message that the method is called on (`unmarshal_wire`): a field with a default value changes
nothing, an embedded message is merged, a repeated one is appended, and the member of a oneof is
replaced.  From a new message the message itself comes back, but for a slice that is empty and not
nil, and for the member of a oneof that is nil (`normal`).

No string makes an `Unmarshal` method panic (`unmarshal_noPanic`).
-/

namespace Ics23.Go

open Outcome Reader Wire

/-! ## Merging -/

def mergeInt32 (old x : Int32) : Int32 := if x = 0 then old else x

def mergeBytes (old b : Bytes) : Bytes := if b = [] then old else b

def mergeSlice (old s : Slice) : Slice := if s.bytes = [] then old else s

/-- An embedded message is merged into the one that is there, or into a new one. -/
def mergeOption {α : Type} (new : α) (merge : α → α → α) (old x : Option α) : Option α :=
  match x with
  | none => old
  | some y => some (merge (old.getD new) y)

def LeafOp.merge (old m : LeafOp) : LeafOp where
  hash := mergeInt32 old.hash m.hash
  prehashKey := mergeInt32 old.prehashKey m.prehashKey
  prehashValue := mergeInt32 old.prehashValue m.prehashValue
  length := mergeInt32 old.length m.length
  prefix_ := mergeBytes old.prefix_ m.prefix_

def InnerOp.merge (old m : InnerOp) : InnerOp where
  hash := mergeInt32 old.hash m.hash
  prefix_ := mergeBytes old.prefix_ m.prefix_
  suffix := mergeSlice old.suffix m.suffix

def InnerSpec.merge (old m : InnerSpec) : InnerSpec where
  childOrder := old.childOrder ++ m.childOrder
  childSize := mergeInt32 old.childSize m.childSize
  minPrefixLength := mergeInt32 old.minPrefixLength m.minPrefixLength
  maxPrefixLength := mergeInt32 old.maxPrefixLength m.maxPrefixLength
  emptyChild := mergeBytes old.emptyChild m.emptyChild
  hash := mergeInt32 old.hash m.hash

def ProofSpec.merge (old m : ProofSpec) : ProofSpec where
  leafSpec := mergeOption LeafOp.new LeafOp.merge old.leafSpec m.leafSpec
  innerSpec := mergeOption InnerSpec.new InnerSpec.merge old.innerSpec m.innerSpec
  maxDepth := mergeInt32 old.maxDepth m.maxDepth
  minDepth := mergeInt32 old.minDepth m.minDepth
  prehashKeyBeforeComparison := old.prehashKeyBeforeComparison || m.prehashKeyBeforeComparison

def ExistenceProof.merge (old m : ExistenceProof) : ExistenceProof where
  key := mergeSlice old.key m.key
  value := mergeBytes old.value m.value
  leaf := mergeOption LeafOp.new LeafOp.merge old.leaf m.leaf
  path := old.path ++ m.path.map InnerOp.new.merge

def NonExistenceProof.merge (old m : NonExistenceProof) : NonExistenceProof where
  key := mergeBytes old.key m.key
  left := mergeOption .new ExistenceProof.merge old.left m.left
  right := mergeOption .new ExistenceProof.merge old.right m.right

def BatchEntry.merge (old m : BatchEntry) : BatchEntry :=
  match m with
  | .exist (some ex) => .exist (some (ExistenceProof.new.merge ex))
  | .nonexist (some non) => .nonexist (some (NonExistenceProof.new.merge non))
  | _ => old

def BatchProof.merge (old m : BatchProof) : BatchProof where
  entries := old.entries ++ m.entries.map BatchEntry.new.merge

def CompressedExistenceProof.merge (old m : CompressedExistenceProof) :
    CompressedExistenceProof where
  key := mergeBytes old.key m.key
  value := mergeBytes old.value m.value
  leaf := mergeOption LeafOp.new LeafOp.merge old.leaf m.leaf
  path := old.path ++ m.path

def CompressedNonExistenceProof.merge (old m : CompressedNonExistenceProof) :
    CompressedNonExistenceProof where
  key := mergeBytes old.key m.key
  left := mergeOption .new CompressedExistenceProof.merge old.left m.left
  right := mergeOption .new CompressedExistenceProof.merge old.right m.right

def CompressedBatchEntry.merge (old m : CompressedBatchEntry) : CompressedBatchEntry :=
  match m with
  | .exist (some ex) => .exist (some (CompressedExistenceProof.new.merge ex))
  | .nonexist (some non) => .nonexist (some (CompressedNonExistenceProof.new.merge non))
  | _ => old

def CompressedBatchProof.merge (old m : CompressedBatchProof) : CompressedBatchProof where
  entries := old.entries ++ m.entries.map CompressedBatchEntry.new.merge
  lookupInners := old.lookupInners ++ m.lookupInners.map InnerOp.new.merge

def Pb.CommitmentProof.merge (old m : Pb.CommitmentProof) : Pb.CommitmentProof :=
  match m with
  | .exist (some ex) => .exist (some (ExistenceProof.new.merge ex))
  | .nonexist (some non) => .nonexist (some (NonExistenceProof.new.merge non))
  | .batch (some b) => .batch (some (BatchProof.new.merge b))
  | .compressed (some c) => .compressed (some (CompressedBatchProof.new.merge c))
  | _ => old

variable {M : Type} {fields : List (Int32 × Field M)} {num : ℕ} {name : String}

/-! ## Fields -/

theorem int32Of_uint64 (x : Int32) : int32Of (uint64 x) = x := by
  have := x.toInt_lt
  have := x.le_toInt
  apply Int32.toInt_inj.1
  show (BitVec.ofNat 32 (uint64 x)).toInt = _
  unfold uint64
  rw [BitVec.toInt_eq_toNat_cond, BitVec.toNat_ofNat]
  split_ifs <;> omega

theorem read_bytes (set : Bytes → M → M) (m : M) {b : Bytes}
    (h : (lengthField num b).length < 2 ^ 63) :
    (Field.bytes name set).read 2 m (Leb128.encode b.length ++ b) = some (set b m, []) := by
  rw [lengthField, List.length_append, List.length_append] at h
  simp only [Field.read, if_true, Reader.map, delimited_self (b := b) (by omega), Option.map_some]

section Fields

variable (hnum : 0 < num ∧ num < 2 ^ 29)

include hnum

theorem message_field {field : Field M} {wireType : ℕ} {p : Bytes} {m m' : M}
    (hfield : fields.lookup (int32Of num) = some field) (hwire : wireType < 8 ∧ wireType ≠ 4)
    (h : field.read wireType m p = some (m', [])) :
    (knownFields fields).message m (tag num wireType ++ p) = some m' := by
  refine Fields.message_known (r := field.read) ?_ hnum hwire h
  simp only [knownFields, hfield, Option.map_some]

theorem message_int32 (get : M → Int32) {set : Int32 → M → M} {m : M} (x : Int32)
    (hfield : fields.lookup (int32Of num) = some (.int32 name set)) (hset : set (get m) m = m) :
    (knownFields fields).message m (numberField num (uint64 x)) =
      some (set (mergeInt32 (get m) x) m) := by
  unfold numberField mergeInt32
  by_cases hx : x = 0
  · rw [if_pos (uint64_eq_zero.2 hx), if_pos hx, hset, Fields.message_nil]
  · rw [if_neg (mt uint64_eq_zero.1 hx), if_neg hx]
    refine message_field hnum hfield (by decide) ?_
    simp only [Field.read, if_true, Reader.map, varint_self (uint64_lt x), Option.map_some,
      int32Of_uint64]

theorem message_bool (get : M → Bool) {set : Bool → M → M} {m : M} (x : Bool)
    (hfield : fields.lookup (int32Of num) = some (.bool name set)) (hset : set (get m) m = m) :
    (knownFields fields).message m (numberField num x.toNat) = some (set (get m || x) m) := by
  cases x with
  | false =>
    rw [Bool.toNat_false, numberField, if_pos rfl, Fields.message_nil, Bool.or_false, hset]
  | true =>
    refine message_field hnum hfield (by decide) ?_
    simp [Field.read, Reader.map, varint_self (n := 1) (by norm_num)]

theorem message_bytes (get : M → Bytes) {set : Bytes → M → M} {m : M} {b : Bytes}
    (hfield : fields.lookup (int32Of num) = some (.bytes name set))
    (h : (bytesField num b).length < 2 ^ 63) (hset : set (get m) m = m) :
    (knownFields fields).message m (bytesField num b) = some (set (mergeBytes (get m) b) m) := by
  unfold bytesField mergeBytes at *
  by_cases hb : b = []
  · rw [if_pos hb, if_pos hb, hset, Fields.message_nil]
  · rw [if_neg hb] at h
    rw [if_neg hb, if_neg hb]
    exact message_field hnum hfield (by decide) (read_bytes set m h)

theorem message_slice (get : M → Slice) (set : Slice → M → M) {m : M} {s : Slice}
    (hfield : fields.lookup (int32Of num) = some (.bytes name fun b => set (some b)))
    (h : (bytesField num s.bytes).length < 2 ^ 63) (hset : set (get m) m = m) :
    (knownFields fields).message m (bytesField num s.bytes) =
      some (set (mergeSlice (get m) s) m) := by
  unfold bytesField mergeSlice at *
  by_cases hb : s.bytes = []
  · rw [if_pos hb, if_pos hb, hset, Fields.message_nil]
  · obtain ⟨b, rfl⟩ : ∃ b, s = some b := Option.ne_none_iff_exists'.1 (by rintro rfl; exact hb rfl)
    rw [if_neg hb] at h
    rw [if_neg hb, if_neg hb]
    exact message_field hnum hfield (by decide) (read_bytes (fun b => set (some b)) m h)

theorem message_merge {merge : Bytes → M → Result M} {b : Bytes} {m m' : M}
    (hfield : fields.lookup (int32Of num) = some (.message name merge))
    (h : (lengthField num b).length < 2 ^ 63) (hmerge : b.length < 2 ^ 63 → merge b m = .ok m') :
    (knownFields fields).message m (lengthField num b) = some m' := by
  rw [lengthField, List.length_append, List.length_append] at h
  refine message_field hnum hfield (by decide) ?_
  simp only [Field.read, if_true, Reader.bind, delimited_self (b := b) (by omega),
    Option.bind_some, hmerge (by omega)]
  rfl

variable {α : Type} {unmarshal : α → Bytes → Result α} {mergeInto : α → α → α} {wire : α → Bytes}
  (hwire : ∀ old y, (wire y).length < 2 ^ 63 → unmarshal old (wire y) = .ok (mergeInto old y))

include hwire

theorem message_option {new : α} (get : M → Option α) (set : Option α → M → M) {m : M}
    (x : Option α)
    (hfield : fields.lookup (int32Of num) = some (.message name fun b m =>
      unmarshal ((get m).getD new) b >>= fun y => pure (set (some y) m)))
    (h : (optionField num (x.map wire)).length < 2 ^ 63) (hset : set (get m) m = m) :
    (knownFields fields).message m (optionField num (x.map wire)) =
      some (set (mergeOption new mergeInto (get m) x) m) := by
  cases x with
  | none =>
    rw [mergeOption, hset]
    rfl
  | some y =>
    refine message_merge hnum hfield h fun hy => ?_
    rw [hwire _ y hy, ok_bind]
    rfl

/-- The member of a oneof. -/
theorem message_member {new : α} (set : α → M) {m : M} (x : Option α)
    (hfield : fields.lookup (int32Of num) = some (.message name fun b _ =>
      unmarshal new b >>= fun y => pure (set y)))
    (h : (optionField num (x.map wire)).length < 2 ^ 63) :
    (knownFields fields).message m (optionField num (x.map wire)) =
      some (x.elim m fun y => set (mergeInto new y)) := by
  cases x with
  | none => rfl
  | some y =>
    refine message_merge hnum hfield h fun hy => ?_
    rw [hwire _ y hy, ok_bind]
    rfl

/-- Embedded messages that are appended one after the other. -/
theorem message_repeated {new : α} (get : M → List α) (set : List α → M → M) {m : M} (ys : List α)
    (hfield : fields.lookup (int32Of num) = some (.message name fun b m =>
      unmarshal new b >>= fun y => pure (set (get m ++ [y]) m)))
    (h : (repeatedField num (ys.map wire)).length < 2 ^ 63)
    (hget : ∀ xs m, get (set xs m) = xs) (hset : ∀ m, set (get m) m = m)
    (hset' : ∀ xs zs m, set xs (set zs m) = set xs m) :
    (knownFields fields).message m (repeatedField num (ys.map wire)) =
      some (set (get m ++ ys.map (mergeInto new)) m) := by
  induction ys generalizing m with
  | nil =>
    rw [List.map_nil (f := mergeInto new), List.append_nil, hset]
    rfl
  | cons y ys ih =>
    have hsplit : repeatedField num ((y :: ys).map wire) =
        lengthField num (wire y) ++ repeatedField num (ys.map wire) := rfl
    rw [hsplit, List.length_append] at h
    have hfirst : (knownFields fields).message m (lengthField num (wire y)) =
        some (set (get m ++ [mergeInto new y]) m) := by
      refine message_merge hnum hfield (by omega) fun hy => ?_
      rw [hwire _ y hy, ok_bind]
      rfl
    have hrest := ih (m := set (get m ++ [mergeInto new y]) m) (by omega)
    rw [hget, hset', List.append_assoc, List.singleton_append] at hrest
    rw [hsplit, List.map_cons (f := mergeInto new)]
    exact Fields.message_trans hfirst hrest

omit hwire in
theorem message_packed (get : M → List Int32) (set : List Int32 → M → M) {m : M} (ys : List Int32)
    (hfield : fields.lookup (int32Of num) =
      some (.packed name fun v m => set (get m ++ [v]) m))
    (h : (packedField num (ys.map uint64)).length < 2 ^ 63)
    (hget : ∀ xs m, get (set xs m) = xs) (hset : ∀ m, set (get m) m = m)
    (hset' : ∀ xs zs m, set xs (set zs m) = set xs m) :
    (knownFields fields).message m (packedField num (ys.map uint64)) =
      some (set (get m ++ ys) m) := by
  have hfold : (ys.map uint64).foldl (fun m n => set (get m ++ [int32Of n]) m) m =
      set (get m ++ ys) m := by
    clear h
    induction ys generalizing m with
    | nil => rw [List.map_nil, List.foldl_nil, List.append_nil, hset]
    | cons y ys ih =>
      rw [List.map_cons, List.foldl_cons, int32Of_uint64, ih, hget, hset', List.append_assoc,
        List.singleton_append]
  unfold packedField at h ⊢
  by_cases hys : ys = []
  · subst hys
    rw [List.append_nil, hset]
    rfl
  · have hmap : ys.map uint64 ≠ [] := by simpa using hys
    rw [if_neg hmap, lengthField, List.length_append, List.length_append] at h
    rw [if_neg hmap]
    refine message_field hnum hfield (by decide) ?_
    have hlt : ∀ n ∈ ys.map uint64, n < 2 ^ 64 := List.forall_mem_map.2 fun x _ => uint64_lt x
    have hpacked := packed_self hlt (by omega)
    simp only [Field.read, if_neg (show (2 : ℕ) ≠ 0 by decide), if_true, Reader.map, hpacked,
      Option.map_some, hfold]

end Fields

/-! ## Safe fields -/

theorem Field.safe_message {α : Type} {f : Bytes → M → Result α} {g : α → M → M}
    (h : ∀ b m, b.length < 2 ^ 63 → (f b m).NoPanic) :
    (Field.message name fun b m => f b m >>= fun x => pure (g x m)).Safe := fun b m hb =>
  (h b m hb).bind fun _ _ => noPanic_ok _

/-! ## Operations and specs -/

theorem LeafOp.safe : ∀ field ∈ LeafOp.fields, field.2.Safe := by
  simp [LeafOp.fields, Field.Safe]

theorem LeafOp.unmarshal_noPanic (m : LeafOp) {b : Bytes} (h : b.length < 2 ^ 63) :
    (LeafOp.unmarshal m b).NoPanic := Go.unmarshal_noPanic h LeafOp.safe _ m

theorem LeafOp.unmarshal_wire (old m : LeafOp) (h : (LeafOp.wire m).length < 2 ^ 63) :
    LeafOp.unmarshal old (LeafOp.wire m) = .ok (LeafOp.merge old m) := by
  refine (unmarshal_eq_ok_iff h LeafOp.safe).2 ?_
  simp only [LeafOp.wire, List.length_append] at h ⊢
  refine Fields.message_trans (message_int32 (by decide) LeafOp.hash m.hash rfl rfl) ?_
  refine Fields.message_trans (message_int32 (by decide) LeafOp.prehashKey m.prehashKey rfl rfl) ?_
  refine Fields.message_trans
    (message_int32 (by decide) LeafOp.prehashValue m.prehashValue rfl rfl) ?_
  refine Fields.message_trans (message_int32 (by decide) LeafOp.length m.length rfl rfl) ?_
  exact Eq.trans (message_bytes (by decide) LeafOp.prefix_ rfl (by omega) rfl) rfl

theorem InnerOp.safe : ∀ field ∈ InnerOp.fields, field.2.Safe := by
  simp [InnerOp.fields, Field.Safe]

theorem InnerOp.unmarshal_noPanic (m : InnerOp) {b : Bytes} (h : b.length < 2 ^ 63) :
    (m.unmarshal b).NoPanic := Go.unmarshal_noPanic h InnerOp.safe _ m

theorem InnerOp.unmarshal_wire (old m : InnerOp) (h : m.wire.length < 2 ^ 63) :
    old.unmarshal m.wire = .ok (old.merge m) := by
  refine (unmarshal_eq_ok_iff h InnerOp.safe).2 ?_
  simp only [InnerOp.wire, List.length_append] at h ⊢
  refine Fields.message_trans (message_int32 (by decide) InnerOp.hash m.hash rfl rfl) ?_
  refine Fields.message_trans (message_bytes (by decide) InnerOp.prefix_ rfl (by omega) rfl) ?_
  exact Eq.trans (message_slice (by decide) InnerOp.suffix (fun s m => { m with suffix := s }) rfl
    (by omega) rfl) rfl

theorem InnerSpec.safe : ∀ field ∈ InnerSpec.fields, field.2.Safe := by
  simp [InnerSpec.fields, Field.Safe]

theorem InnerSpec.unmarshal_noPanic (m : InnerSpec) {b : Bytes} (h : b.length < 2 ^ 63) :
    (InnerSpec.unmarshal m b).NoPanic := Go.unmarshal_noPanic h InnerSpec.safe _ m

theorem InnerSpec.unmarshal_wire (old m : InnerSpec) (h : (InnerSpec.wire m).length < 2 ^ 63) :
    InnerSpec.unmarshal old (InnerSpec.wire m) = .ok (InnerSpec.merge old m) := by
  refine (unmarshal_eq_ok_iff h InnerSpec.safe).2 ?_
  simp only [InnerSpec.wire, List.length_append] at h ⊢
  refine Fields.message_trans (message_packed (by decide) InnerSpec.childOrder
    (fun xs m => { m with childOrder := xs }) m.childOrder rfl (by omega) (fun _ _ => rfl)
    (fun _ => rfl) fun _ _ _ => rfl) ?_
  refine Fields.message_trans (message_int32 (by decide) InnerSpec.childSize m.childSize rfl rfl) ?_
  refine Fields.message_trans
    (message_int32 (by decide) InnerSpec.minPrefixLength m.minPrefixLength rfl rfl) ?_
  refine Fields.message_trans
    (message_int32 (by decide) InnerSpec.maxPrefixLength m.maxPrefixLength rfl rfl) ?_
  refine Fields.message_trans
    (message_bytes (by decide) InnerSpec.emptyChild rfl (by omega) rfl) ?_
  exact Eq.trans (message_int32 (by decide) InnerSpec.hash m.hash rfl rfl) rfl

theorem ProofSpec.safe : ∀ field ∈ ProofSpec.fields, field.2.Safe := by
  simp only [ProofSpec.fields, List.forall_mem_cons, List.not_mem_nil, false_implies,
    implies_true, and_true]
  exact ⟨Field.safe_message fun b m => LeafOp.unmarshal_noPanic _,
    Field.safe_message fun b m => InnerSpec.unmarshal_noPanic _, trivial, trivial, trivial⟩

theorem ProofSpec.unmarshal_wire (old m : ProofSpec) (h : (ProofSpec.wire m).length < 2 ^ 63) :
    ProofSpec.unmarshal old (ProofSpec.wire m) = .ok (ProofSpec.merge old m) := by
  refine (unmarshal_eq_ok_iff h ProofSpec.safe).2 ?_
  simp only [ProofSpec.wire, List.length_append] at h ⊢
  refine Fields.message_trans (message_option (by decide) LeafOp.unmarshal_wire ProofSpec.leafSpec
    (fun x m => { m with leafSpec := x }) m.leafSpec rfl (by omega) rfl) ?_
  refine Fields.message_trans (message_option (by decide) InnerSpec.unmarshal_wire
    ProofSpec.innerSpec (fun x m => { m with innerSpec := x }) m.innerSpec rfl (by omega) rfl) ?_
  refine Fields.message_trans (message_int32 (by decide) ProofSpec.maxDepth m.maxDepth rfl rfl) ?_
  refine Fields.message_trans (message_int32 (by decide) ProofSpec.minDepth m.minDepth rfl rfl) ?_
  exact Eq.trans (message_bool (by decide) ProofSpec.prehashKeyBeforeComparison
    m.prehashKeyBeforeComparison rfl rfl) rfl

/-! ## Proofs -/

theorem ExistenceProof.safe : ∀ field ∈ ExistenceProof.fields, field.2.Safe := by
  simp only [ExistenceProof.fields, List.forall_mem_cons, List.not_mem_nil, false_implies,
    implies_true, and_true]
  exact ⟨trivial, trivial,
    Field.safe_message fun b m => LeafOp.unmarshal_noPanic _,
    Field.safe_message fun b m => InnerOp.unmarshal_noPanic _⟩

theorem ExistenceProof.unmarshal_noPanic (m : ExistenceProof) {b : Bytes} (h : b.length < 2 ^ 63) :
    (m.unmarshal b).NoPanic := Go.unmarshal_noPanic h ExistenceProof.safe _ m

theorem ExistenceProof.unmarshal_wire (old m : ExistenceProof) (h : m.wire.length < 2 ^ 63) :
    old.unmarshal m.wire = .ok (old.merge m) := by
  refine (unmarshal_eq_ok_iff h ExistenceProof.safe).2 ?_
  simp only [ExistenceProof.wire, List.length_append] at h ⊢
  refine Fields.message_trans (message_slice (by decide) ExistenceProof.key
    (fun s m => { m with key := s }) rfl (by omega) rfl) ?_
  refine Fields.message_trans (message_bytes (by decide) ExistenceProof.value rfl (by omega) rfl) ?_
  refine Fields.message_trans (message_option (by decide) LeafOp.unmarshal_wire ExistenceProof.leaf
    (fun x m => { m with leaf := x }) m.leaf rfl (by omega) rfl) ?_
  exact Eq.trans (message_repeated (by decide) InnerOp.unmarshal_wire ExistenceProof.path
    (fun xs m => { m with path := xs }) m.path rfl (by omega) (fun _ _ => rfl) (fun _ => rfl)
    fun _ _ _ => rfl) rfl

theorem NonExistenceProof.safe : ∀ field ∈ NonExistenceProof.fields, field.2.Safe := by
  simp only [NonExistenceProof.fields, List.forall_mem_cons, List.not_mem_nil, false_implies,
    implies_true, and_true]
  exact ⟨trivial,
    Field.safe_message fun b m => ExistenceProof.unmarshal_noPanic _,
    Field.safe_message fun b m => ExistenceProof.unmarshal_noPanic _⟩

theorem NonExistenceProof.unmarshal_noPanic (m : NonExistenceProof) {b : Bytes}
    (h : b.length < 2 ^ 63) : (m.unmarshal b).NoPanic :=
  Go.unmarshal_noPanic h NonExistenceProof.safe _ m

theorem NonExistenceProof.unmarshal_wire (old m : NonExistenceProof) (h : m.wire.length < 2 ^ 63) :
    old.unmarshal m.wire = .ok (old.merge m) := by
  refine (unmarshal_eq_ok_iff h NonExistenceProof.safe).2 ?_
  simp only [NonExistenceProof.wire, List.length_append] at h ⊢
  refine Fields.message_trans
    (message_bytes (by decide) NonExistenceProof.key rfl (by omega) rfl) ?_
  refine Fields.message_trans (message_option (by decide) ExistenceProof.unmarshal_wire
    NonExistenceProof.left (fun x m => { m with left := x }) m.left rfl (by omega) rfl) ?_
  exact Eq.trans (message_option (by decide) ExistenceProof.unmarshal_wire NonExistenceProof.right
    (fun x m => { m with right := x }) m.right rfl (by omega) rfl) rfl

theorem CompressedExistenceProof.safe :
    ∀ field ∈ CompressedExistenceProof.fields, field.2.Safe := by
  simp only [CompressedExistenceProof.fields, List.forall_mem_cons, List.not_mem_nil, false_implies,
    implies_true, and_true]
  exact ⟨trivial, trivial,
    Field.safe_message fun b m => LeafOp.unmarshal_noPanic _,
    trivial⟩

theorem CompressedExistenceProof.unmarshal_noPanic (m : CompressedExistenceProof) {b : Bytes}
    (h : b.length < 2 ^ 63) : (m.unmarshal b).NoPanic :=
  Go.unmarshal_noPanic h CompressedExistenceProof.safe _ m

theorem CompressedExistenceProof.unmarshal_wire (old m : CompressedExistenceProof)
    (h : m.wire.length < 2 ^ 63) : old.unmarshal m.wire = .ok (old.merge m) := by
  refine (unmarshal_eq_ok_iff h CompressedExistenceProof.safe).2 ?_
  simp only [CompressedExistenceProof.wire, List.length_append] at h ⊢
  refine Fields.message_trans
    (message_bytes (by decide) CompressedExistenceProof.key rfl (by omega) rfl) ?_
  refine Fields.message_trans
    (message_bytes (by decide) CompressedExistenceProof.value rfl (by omega) rfl) ?_
  refine Fields.message_trans (message_option (by decide) LeafOp.unmarshal_wire
    CompressedExistenceProof.leaf (fun x m => { m with leaf := x }) m.leaf rfl (by omega) rfl) ?_
  exact Eq.trans (message_packed (by decide) CompressedExistenceProof.path
    (fun xs m => { m with path := xs }) m.path rfl (by omega) (fun _ _ => rfl) (fun _ => rfl)
    fun _ _ _ => rfl) rfl

theorem CompressedNonExistenceProof.safe :
    ∀ field ∈ CompressedNonExistenceProof.fields, field.2.Safe := by
  simp only [CompressedNonExistenceProof.fields, List.forall_mem_cons, List.not_mem_nil,
    false_implies, implies_true, and_true]
  exact ⟨trivial,
    Field.safe_message fun b m => CompressedExistenceProof.unmarshal_noPanic _,
    Field.safe_message fun b m => CompressedExistenceProof.unmarshal_noPanic _⟩

theorem CompressedNonExistenceProof.unmarshal_noPanic (m : CompressedNonExistenceProof) {b : Bytes}
    (h : b.length < 2 ^ 63) : (m.unmarshal b).NoPanic :=
  Go.unmarshal_noPanic h CompressedNonExistenceProof.safe _ m

theorem CompressedNonExistenceProof.unmarshal_wire (old m : CompressedNonExistenceProof)
    (h : m.wire.length < 2 ^ 63) : old.unmarshal m.wire = .ok (old.merge m) := by
  refine (unmarshal_eq_ok_iff h CompressedNonExistenceProof.safe).2 ?_
  simp only [CompressedNonExistenceProof.wire, List.length_append] at h ⊢
  refine Fields.message_trans
    (message_bytes (by decide) CompressedNonExistenceProof.key rfl (by omega) rfl) ?_
  refine Fields.message_trans (message_option (by decide) CompressedExistenceProof.unmarshal_wire
    CompressedNonExistenceProof.left (fun x m => { m with left := x }) m.left rfl (by omega) rfl) ?_
  exact Eq.trans (message_option (by decide) CompressedExistenceProof.unmarshal_wire
    CompressedNonExistenceProof.right
    (fun x m => { m with right := x }) m.right rfl (by omega) rfl) rfl

/-! ## Batches -/

theorem BatchEntry.safe : ∀ field ∈ BatchEntry.fields, field.2.Safe := by
  simp only [BatchEntry.fields, List.forall_mem_cons, List.not_mem_nil, false_implies,
    implies_true, and_true]
  exact ⟨Field.safe_message fun b m => ExistenceProof.unmarshal_noPanic _,
    Field.safe_message fun b m => NonExistenceProof.unmarshal_noPanic _⟩

theorem BatchEntry.unmarshal_noPanic (m : BatchEntry) {b : Bytes} (h : b.length < 2 ^ 63) :
    (m.unmarshal b).NoPanic := Go.unmarshal_noPanic h BatchEntry.safe _ m

theorem BatchEntry.unmarshal_wire (old m : BatchEntry) (h : m.wire.length < 2 ^ 63) :
    old.unmarshal m.wire = .ok (old.merge m) := by
  refine (unmarshal_eq_ok_iff h BatchEntry.safe).2 ?_
  cases m with
  | exist ex =>
    refine Eq.trans (message_member (by decide) ExistenceProof.unmarshal_wire
      (fun y => .exist (some y)) ex rfl h) ?_
    cases ex <;> rfl
  | nonexist non =>
    refine Eq.trans (message_member (by decide) NonExistenceProof.unmarshal_wire
      (fun y => .nonexist (some y)) non rfl h) ?_
    cases non <;> rfl
  | none => rfl

theorem BatchProof.safe : ∀ field ∈ BatchProof.fields, field.2.Safe := by
  simp only [BatchProof.fields, List.forall_mem_cons, List.not_mem_nil, false_implies,
    implies_true, and_true]
  exact Field.safe_message fun b m => BatchEntry.unmarshal_noPanic _

theorem BatchProof.unmarshal_noPanic (m : BatchProof) {b : Bytes} (h : b.length < 2 ^ 63) :
    (m.unmarshal b).NoPanic := Go.unmarshal_noPanic h BatchProof.safe _ m

theorem BatchProof.unmarshal_wire (old m : BatchProof) (h : m.wire.length < 2 ^ 63) :
    old.unmarshal m.wire = .ok (old.merge m) := by
  refine (unmarshal_eq_ok_iff h BatchProof.safe).2 ?_
  exact Eq.trans (message_repeated (by decide) BatchEntry.unmarshal_wire BatchProof.entries
    (fun xs m => { m with entries := xs }) m.entries rfl h (fun _ _ => rfl) (fun _ => rfl)
    fun _ _ _ => rfl) rfl

theorem CompressedBatchEntry.safe : ∀ field ∈ CompressedBatchEntry.fields, field.2.Safe := by
  simp only [CompressedBatchEntry.fields, List.forall_mem_cons, List.not_mem_nil, false_implies,
    implies_true, and_true]
  exact ⟨Field.safe_message fun b m => CompressedExistenceProof.unmarshal_noPanic _,
    Field.safe_message fun b m => CompressedNonExistenceProof.unmarshal_noPanic _⟩

theorem CompressedBatchEntry.unmarshal_noPanic (m : CompressedBatchEntry) {b : Bytes}
    (h : b.length < 2 ^ 63) : (m.unmarshal b).NoPanic :=
  Go.unmarshal_noPanic h CompressedBatchEntry.safe _ m

theorem CompressedBatchEntry.unmarshal_wire (old m : CompressedBatchEntry)
    (h : m.wire.length < 2 ^ 63) : old.unmarshal m.wire = .ok (old.merge m) := by
  refine (unmarshal_eq_ok_iff h CompressedBatchEntry.safe).2 ?_
  cases m with
  | exist ex =>
    refine Eq.trans (message_member (by decide) CompressedExistenceProof.unmarshal_wire
      (fun y => .exist (some y)) ex rfl h) ?_
    cases ex <;> rfl
  | nonexist non =>
    refine Eq.trans (message_member (by decide) CompressedNonExistenceProof.unmarshal_wire
      (fun y => .nonexist (some y)) non rfl h) ?_
    cases non <;> rfl
  | none => rfl

theorem CompressedBatchProof.safe : ∀ field ∈ CompressedBatchProof.fields, field.2.Safe := by
  simp only [CompressedBatchProof.fields, List.forall_mem_cons, List.not_mem_nil, false_implies,
    implies_true, and_true]
  exact ⟨Field.safe_message fun b m => CompressedBatchEntry.unmarshal_noPanic _,
    Field.safe_message fun b m => InnerOp.unmarshal_noPanic _⟩

theorem CompressedBatchProof.unmarshal_noPanic (m : CompressedBatchProof) {b : Bytes}
    (h : b.length < 2 ^ 63) : (m.unmarshal b).NoPanic :=
  Go.unmarshal_noPanic h CompressedBatchProof.safe _ m

theorem CompressedBatchProof.unmarshal_wire (old m : CompressedBatchProof)
    (h : m.wire.length < 2 ^ 63) : old.unmarshal m.wire = .ok (old.merge m) := by
  refine (unmarshal_eq_ok_iff h CompressedBatchProof.safe).2 ?_
  simp only [CompressedBatchProof.wire, List.length_append] at h ⊢
  refine Fields.message_trans (message_repeated (by decide) CompressedBatchEntry.unmarshal_wire
    CompressedBatchProof.entries
    (fun xs m => { m with entries := xs }) m.entries rfl (by omega) (fun _ _ => rfl) (fun _ => rfl)
    fun _ _ _ => rfl) ?_
  exact Eq.trans (message_repeated (by decide) InnerOp.unmarshal_wire
    CompressedBatchProof.lookupInners
    (fun xs m => { m with lookupInners := xs }) m.lookupInners rfl (by omega) (fun _ _ => rfl)
    (fun _ => rfl) fun _ _ _ => rfl) rfl

namespace Pb

theorem CommitmentProof.safe : ∀ field ∈ CommitmentProof.fields, field.2.Safe := by
  simp only [CommitmentProof.fields, List.forall_mem_cons, List.not_mem_nil, false_implies,
    implies_true, and_true]
  exact ⟨Field.safe_message fun b m => ExistenceProof.unmarshal_noPanic _,
    Field.safe_message fun b m => NonExistenceProof.unmarshal_noPanic _,
    Field.safe_message fun b m => BatchProof.unmarshal_noPanic _,
    Field.safe_message fun b m => CompressedBatchProof.unmarshal_noPanic _⟩

theorem CommitmentProof.unmarshal_noPanic (m : CommitmentProof) {b : Bytes}
    (h : b.length < 2 ^ 63) : (m.unmarshal b).NoPanic :=
  Go.unmarshal_noPanic h CommitmentProof.safe _ m

theorem CommitmentProof.unmarshal_wire (old m : CommitmentProof) (h : m.wire.length < 2 ^ 63) :
    old.unmarshal m.wire = .ok (old.merge m) := by
  refine (unmarshal_eq_ok_iff h CommitmentProof.safe).2 ?_
  cases m with
  | exist ex =>
    refine Eq.trans (message_member (by decide) ExistenceProof.unmarshal_wire
      (fun y => .exist (some y)) ex rfl h) ?_
    cases ex <;> rfl
  | nonexist non =>
    refine Eq.trans (message_member (by decide) NonExistenceProof.unmarshal_wire
      (fun y => .nonexist (some y)) non rfl h) ?_
    cases non <;> rfl
  | batch b =>
    refine Eq.trans (message_member (by decide) BatchProof.unmarshal_wire (fun y => .batch (some y))
      b rfl h) ?_
    cases b <;> rfl
  | compressed c =>
    refine Eq.trans (message_member (by decide) CompressedBatchProof.unmarshal_wire
      (fun y => .compressed (some y)) c rfl h) ?_
    cases c <;> rfl
  | none => rfl

end Pb

end Ics23.Go
