import Ics23.Lib.Wire
import Ics23.Go.Messages

/-!
# The messages on the wire

The messages of `proofs.pb.go` that the verifier does not look into, their sizes, and the encoding
of each message: its fields in the order of their numbers, default values left out.  The sizes are
the lengths of the encodings (`length_wire`).
-/

namespace Ics23.Go

open Wire

/-! ## Messages -/

/-- `BatchEntry`, with the member of its oneof. -/
inductive BatchEntry where
  | exist (ex : Option ExistenceProof)
  | nonexist (non : Option NonExistenceProof)
  | none
  deriving DecidableEq, Repr

structure BatchProof where
  entries : List BatchEntry
  deriving DecidableEq, Repr

structure CompressedExistenceProof where
  key : Bytes
  value : Bytes
  leaf : Option LeafOp
  path : List Int32
  deriving DecidableEq, Repr

structure CompressedNonExistenceProof where
  key : Bytes
  left : Option CompressedExistenceProof
  right : Option CompressedExistenceProof
  deriving DecidableEq, Repr

/-- `CompressedBatchEntry`, with the member of its oneof. -/
inductive CompressedBatchEntry where
  | exist (ex : Option CompressedExistenceProof)
  | nonexist (non : Option CompressedNonExistenceProof)
  | none
  deriving DecidableEq, Repr

structure CompressedBatchProof where
  entries : List CompressedBatchEntry
  lookupInners : List InnerOp
  deriving DecidableEq, Repr

namespace Pb

/-- `CommitmentProof`, with the member of its oneof and everything in it. -/
inductive CommitmentProof where
  | exist (ex : Option ExistenceProof)
  | nonexist (non : Option NonExistenceProof)
  | batch (batch : Option BatchProof)
  | compressed (compressed : Option CompressedBatchProof)
  | none
  deriving DecidableEq, Repr

/-- What the verifier sees of a proof. -/
def CommitmentProof.toProof : CommitmentProof → Go.CommitmentProof
  | .exist ex => .exist ex
  | .nonexist non => .nonexist non
  | .batch _ => .batch
  | .compressed _ => .compressed
  | .none => .none

end Pb

/-! ## Sizes -/

/-- The conversion `uint64(x)`, which extends the sign. -/
def uint64 (x : Int32) : ℕ := (x.toInt % 2 ^ 64).toNat

/-- The argument is a `uint64`; `Len64` is the number of its binary digits. -/
def sovProofs (x : ℕ) : ℕ := (Nat.log2 (x ||| 1) + 1 + 6) / 7

/-- The terms of a `Size` method for an integer, for bytes, for an embedded message of size `l`, and
for the bytes of packed integers. -/
def sizeInt32 (x : Int32) : ℕ := if x ≠ 0 then 1 + sovProofs (uint64 x) else 0

def sizeMessage (l : ℕ) : ℕ := 1 + l + sovProofs l

def sizeBytes (b : Bytes) : ℕ := if b.length > 0 then sizeMessage b.length else 0

def sizePacked (xs : List Int32) : ℕ :=
  if xs.length > 0 then sizeMessage (xs.map fun e => sovProofs (uint64 e)).sum else 0

def LeafOp.size (m : LeafOp) : ℕ :=
  sizeInt32 m.hash + sizeInt32 m.prehashKey + sizeInt32 m.prehashValue + sizeInt32 m.length +
    sizeBytes m.prefix_

def InnerOp.size (m : InnerOp) : ℕ :=
  sizeInt32 m.hash + sizeBytes m.prefix_ + sizeBytes m.suffix.bytes

def InnerSpec.size (m : InnerSpec) : ℕ :=
  sizePacked m.childOrder + sizeInt32 m.childSize + sizeInt32 m.minPrefixLength +
    sizeInt32 m.maxPrefixLength + sizeBytes m.emptyChild + sizeInt32 m.hash

/-- The term of an optional message. -/
def sizeOption {α : Type} (size : α → ℕ) (m : Option α) : ℕ :=
  m.elim 0 fun x => sizeMessage (size x)

/-- The terms of a repeated message. -/
def sizeRepeated {α : Type} (size : α → ℕ) (ms : List α) : ℕ :=
  (ms.map fun x => sizeMessage (size x)).sum

def ProofSpec.size (m : ProofSpec) : ℕ :=
  sizeOption LeafOp.size m.leafSpec + sizeOption InnerSpec.size m.innerSpec +
    sizeInt32 m.maxDepth + sizeInt32 m.minDepth + if m.prehashKeyBeforeComparison then 2 else 0

def ExistenceProof.size (m : ExistenceProof) : ℕ :=
  sizeBytes m.key.bytes + sizeBytes m.value + sizeOption LeafOp.size m.leaf +
    sizeRepeated InnerOp.size m.path

def NonExistenceProof.size (m : NonExistenceProof) : ℕ :=
  sizeBytes m.key + sizeOption ExistenceProof.size m.left + sizeOption ExistenceProof.size m.right

def BatchEntry.size (m : BatchEntry) : ℕ :=
  match m with
  | .exist ex => sizeOption ExistenceProof.size ex
  | .nonexist non => sizeOption NonExistenceProof.size non
  | .none => 0

def BatchProof.size (m : BatchProof) : ℕ := sizeRepeated BatchEntry.size m.entries

def CompressedExistenceProof.size (m : CompressedExistenceProof) : ℕ :=
  sizeBytes m.key + sizeBytes m.value + sizeOption LeafOp.size m.leaf + sizePacked m.path

def CompressedNonExistenceProof.size (m : CompressedNonExistenceProof) : ℕ :=
  sizeBytes m.key + sizeOption CompressedExistenceProof.size m.left +
    sizeOption CompressedExistenceProof.size m.right

def CompressedBatchEntry.size (m : CompressedBatchEntry) : ℕ :=
  match m with
  | .exist ex => sizeOption CompressedExistenceProof.size ex
  | .nonexist non => sizeOption CompressedNonExistenceProof.size non
  | .none => 0

def CompressedBatchProof.size (m : CompressedBatchProof) : ℕ :=
  sizeRepeated CompressedBatchEntry.size m.entries + sizeRepeated InnerOp.size m.lookupInners

def Pb.CommitmentProof.size (m : Pb.CommitmentProof) : ℕ :=
  match m with
  | .exist ex => sizeOption ExistenceProof.size ex
  | .nonexist non => sizeOption NonExistenceProof.size non
  | .batch b => sizeOption BatchProof.size b
  | .compressed c => sizeOption CompressedBatchProof.size c
  | .none => 0

/-! ## Encodings -/

def LeafOp.wire (m : LeafOp) : Bytes :=
  numberField 1 (uint64 m.hash) ++ (numberField 2 (uint64 m.prehashKey) ++
    (numberField 3 (uint64 m.prehashValue) ++ (numberField 4 (uint64 m.length) ++
      bytesField 5 m.prefix_)))

def InnerOp.wire (m : InnerOp) : Bytes :=
  numberField 1 (uint64 m.hash) ++ (bytesField 2 m.prefix_ ++ bytesField 3 m.suffix.bytes)

def InnerSpec.wire (m : InnerSpec) : Bytes :=
  packedField 1 (m.childOrder.map uint64) ++ (numberField 2 (uint64 m.childSize) ++
    (numberField 3 (uint64 m.minPrefixLength) ++ (numberField 4 (uint64 m.maxPrefixLength) ++
      (bytesField 5 m.emptyChild ++ numberField 6 (uint64 m.hash)))))

def ProofSpec.wire (m : ProofSpec) : Bytes :=
  optionField 1 (m.leafSpec.map LeafOp.wire) ++ (optionField 2 (m.innerSpec.map InnerSpec.wire) ++
    (numberField 3 (uint64 m.maxDepth) ++ (numberField 4 (uint64 m.minDepth) ++
      numberField 5 m.prehashKeyBeforeComparison.toNat)))

def ExistenceProof.wire (m : ExistenceProof) : Bytes :=
  bytesField 1 m.key.bytes ++ (bytesField 2 m.value ++ (optionField 3 (m.leaf.map LeafOp.wire) ++
    repeatedField 4 (m.path.map InnerOp.wire)))

def NonExistenceProof.wire (m : NonExistenceProof) : Bytes :=
  bytesField 1 m.key ++ (optionField 2 (m.left.map ExistenceProof.wire) ++
    optionField 3 (m.right.map ExistenceProof.wire))

def BatchEntry.wire (m : BatchEntry) : Bytes :=
  match m with
  | .exist ex => optionField 1 (ex.map ExistenceProof.wire)
  | .nonexist non => optionField 2 (non.map NonExistenceProof.wire)
  | .none => []

def BatchProof.wire (m : BatchProof) : Bytes := repeatedField 1 (m.entries.map BatchEntry.wire)

def CompressedExistenceProof.wire (m : CompressedExistenceProof) : Bytes :=
  bytesField 1 m.key ++ (bytesField 2 m.value ++ (optionField 3 (m.leaf.map LeafOp.wire) ++
    packedField 4 (m.path.map uint64)))

def CompressedNonExistenceProof.wire (m : CompressedNonExistenceProof) : Bytes :=
  bytesField 1 m.key ++ (optionField 2 (m.left.map CompressedExistenceProof.wire) ++
    optionField 3 (m.right.map CompressedExistenceProof.wire))

def CompressedBatchEntry.wire (m : CompressedBatchEntry) : Bytes :=
  match m with
  | .exist ex => optionField 1 (ex.map CompressedExistenceProof.wire)
  | .nonexist non => optionField 2 (non.map CompressedNonExistenceProof.wire)
  | .none => []

def CompressedBatchProof.wire (m : CompressedBatchProof) : Bytes :=
  repeatedField 1 (m.entries.map CompressedBatchEntry.wire) ++
    repeatedField 2 (m.lookupInners.map InnerOp.wire)

def Pb.CommitmentProof.wire (m : Pb.CommitmentProof) : Bytes :=
  match m with
  | .exist ex => optionField 1 (ex.map ExistenceProof.wire)
  | .nonexist non => optionField 2 (non.map NonExistenceProof.wire)
  | .batch b => optionField 3 (b.map BatchProof.wire)
  | .compressed c => optionField 4 (c.map CompressedBatchProof.wire)
  | .none => []

/-! ## Sizes of encodings -/

theorem log2_or_one {x : ℕ} (h : x ≠ 0) : Nat.log2 (x ||| 1) = Nat.log2 x := by
  have hle : x ≤ x ||| 1 := Nat.left_le_or
  refine (Nat.log2_eq_iff (by omega)).2 ⟨(Nat.log2_self_le h).trans hle, ?_⟩
  exact Nat.or_lt_two_pow Nat.lt_log2_self (Nat.one_lt_two_pow (Nat.succ_ne_zero _))

theorem log2_div_128 {x : ℕ} (h : 128 ≤ x) : Nat.log2 x = Nat.log2 (x / 128) + 7 := by
  have hne : x / 128 ≠ 0 := by omega
  have hlo := Nat.log2_self_le hne
  have hhi := Nat.lt_log2_self (n := x / 128)
  rw [pow_succ] at hhi
  refine (Nat.log2_eq_iff (by omega)).2 ⟨?_, ?_⟩
  · rw [pow_add]
    omega
  · rw [pow_succ, pow_add]
    omega

/-- The number of groups of a varint. -/
theorem sovProofs_eq (x : ℕ) : sovProofs x = (Leb128.encode x).length := by
  induction x using Nat.strong_induction_on with
  | _ x ih =>
    rcases Nat.lt_or_ge x 128 with hx | hx
    · rw [Leb128.encode_of_lt hx, List.length_singleton]
      have hne : x ||| 1 ≠ 0 := by
        have : 1 ≤ x ||| 1 := Nat.right_le_or
        omega
      have hlog := (Nat.log2_lt hne).2 (Nat.or_lt_two_pow (n := 7) hx (by norm_num))
      unfold sovProofs
      omega
    · rw [Leb128.encode_of_le hx, List.length_cons, ← ih (x / 128) (by omega)]
      unfold sovProofs
      rw [log2_or_one (by omega), log2_or_one (by omega), log2_div_128 hx]
      omega

theorem length_tag {num wireType : ℕ} (h : num * 8 + wireType < 128) :
    (tag num wireType).length = 1 := by
  rw [tag_eq h, List.length_singleton]

theorem uint64_eq_zero {x : Int32} : uint64 x = 0 ↔ x = 0 := by
  have := x.toInt_lt
  have := x.le_toInt
  unfold uint64
  rw [← Int32.toInt_inj, Int32.toInt_zero]
  omega

section Sizes

variable {num : ℕ} (h : num < 15)

include h

theorem length_numberField (x : Int32) :
    (numberField num (uint64 x)).length = sizeInt32 x := by
  unfold sizeInt32 numberField
  by_cases hx : x = 0
  · rw [if_neg (not_not.2 hx), if_pos (uint64_eq_zero.2 hx), List.length_nil]
  · rw [if_pos hx, if_neg (mt uint64_eq_zero.1 hx), List.length_append, length_tag (by omega),
      sovProofs_eq]

theorem length_lengthField (b : Bytes) : (lengthField num b).length = sizeMessage b.length := by
  rw [sizeMessage, lengthField, List.length_append, List.length_append, length_tag (by omega),
    sovProofs_eq]
  omega

theorem length_bytesField (b : Bytes) : (bytesField num b).length = sizeBytes b := by
  unfold sizeBytes bytesField
  by_cases hb : b = []
  · simp [hb]
  · rw [if_pos (List.length_pos_iff.2 hb), if_neg hb, length_lengthField h]

theorem length_packedField (xs : List Int32) :
    (packedField num (xs.map uint64)).length = sizePacked xs := by
  have hsum : (xs.map fun e => sovProofs (uint64 e)).sum =
      ((xs.map uint64).flatMap Leb128.encode).length := by
    rw [List.length_flatMap, List.map_map]
    congr 1
    exact List.map_congr_left fun e _ => sovProofs_eq (uint64 e)
  unfold sizePacked packedField
  by_cases hxs : xs = []
  · simp [hxs]
  · rw [if_pos (List.length_pos_iff.2 hxs), if_neg (by simpa using hxs), hsum, length_lengthField h]

variable {α : Type} {size : α → ℕ} {wire : α → Bytes} (hsize : ∀ x, (wire x).length = size x)

include hsize

theorem length_optionField (m : Option α) :
    (optionField num (m.map wire)).length = sizeOption size m := by
  cases m with
  | none => rfl
  | some x =>
    show (lengthField num (wire x)).length = sizeMessage (size x)
    rw [length_lengthField h, hsize]

theorem length_repeatedField (ms : List α) :
    (repeatedField num (ms.map wire)).length = sizeRepeated size ms := by
  rw [sizeRepeated, repeatedField, List.length_flatMap, List.map_map]
  congr 1
  exact List.map_congr_left fun x _ => by rw [Function.comp_apply, length_lengthField h, hsize]

end Sizes

theorem LeafOp.length_wire (m : LeafOp) : (LeafOp.wire m).length = LeafOp.size m := by
  simp (disch := decide) only [LeafOp.wire, LeafOp.size, List.length_append, length_numberField,
    length_bytesField]
  omega

theorem InnerOp.length_wire (m : InnerOp) : m.wire.length = m.size := by
  simp (disch := decide) only [InnerOp.wire, InnerOp.size, List.length_append, length_numberField,
    length_bytesField]
  omega

theorem InnerSpec.length_wire (m : InnerSpec) : (InnerSpec.wire m).length = InnerSpec.size m := by
  simp (disch := decide) only [InnerSpec.wire, InnerSpec.size, List.length_append,
    length_numberField, length_bytesField, length_packedField]
  omega

theorem ProofSpec.length_wire (m : ProofSpec) : (ProofSpec.wire m).length = ProofSpec.size m := by
  have hbool : (numberField 5 m.prehashKeyBeforeComparison.toNat).length =
      if m.prehashKeyBeforeComparison then 2 else 0 := by
    cases m.prehashKeyBeforeComparison
    · rfl
    · simp [numberField, tag_eq, Leb128.encode_of_lt]
  simp (disch := decide) only [ProofSpec.wire, ProofSpec.size, List.length_append,
    length_numberField, length_optionField _ LeafOp.length_wire,
    length_optionField _ InnerSpec.length_wire, hbool]
  omega

theorem ExistenceProof.length_wire (m : ExistenceProof) : m.wire.length = m.size := by
  simp (disch := decide) only [ExistenceProof.wire, ExistenceProof.size, List.length_append,
    length_bytesField, length_optionField _ LeafOp.length_wire,
    length_repeatedField _ InnerOp.length_wire]
  omega

theorem NonExistenceProof.length_wire (m : NonExistenceProof) : m.wire.length = m.size := by
  simp (disch := decide) only [NonExistenceProof.wire, NonExistenceProof.size, List.length_append,
    length_bytesField, length_optionField _ ExistenceProof.length_wire]
  omega

theorem BatchEntry.length_wire (m : BatchEntry) : m.wire.length = m.size := by
  cases m with
  | exist ex => exact length_optionField (by decide) ExistenceProof.length_wire ex
  | nonexist non => exact length_optionField (by decide) NonExistenceProof.length_wire non
  | none => rfl

theorem BatchProof.length_wire (m : BatchProof) : m.wire.length = m.size :=
  length_repeatedField (by decide) BatchEntry.length_wire m.entries

theorem CompressedExistenceProof.length_wire (m : CompressedExistenceProof) :
    m.wire.length = m.size := by
  simp (disch := decide) only [CompressedExistenceProof.wire, CompressedExistenceProof.size,
    List.length_append, length_bytesField, length_optionField _ LeafOp.length_wire,
    length_packedField]
  omega

theorem CompressedNonExistenceProof.length_wire (m : CompressedNonExistenceProof) :
    m.wire.length = m.size := by
  simp (disch := decide) only [CompressedNonExistenceProof.wire, CompressedNonExistenceProof.size,
    List.length_append, length_bytesField,
    length_optionField _ CompressedExistenceProof.length_wire]
  omega

theorem CompressedBatchEntry.length_wire (m : CompressedBatchEntry) : m.wire.length = m.size := by
  cases m with
  | exist ex => exact length_optionField (by decide) CompressedExistenceProof.length_wire ex
  | nonexist non => exact length_optionField (by decide) CompressedNonExistenceProof.length_wire non
  | none => rfl

theorem CompressedBatchProof.length_wire (m : CompressedBatchProof) : m.wire.length = m.size := by
  simp (disch := decide) only [CompressedBatchProof.wire, CompressedBatchProof.size,
    List.length_append, length_repeatedField _ CompressedBatchEntry.length_wire,
    length_repeatedField _ InnerOp.length_wire]

theorem Pb.CommitmentProof.length_wire (m : Pb.CommitmentProof) : m.wire.length = m.size := by
  cases m with
  | exist ex => exact length_optionField (by decide) ExistenceProof.length_wire ex
  | nonexist non => exact length_optionField (by decide) NonExistenceProof.length_wire non
  | batch b => exact length_optionField (by decide) BatchProof.length_wire b
  | compressed c => exact length_optionField (by decide) CompressedBatchProof.length_wire c
  | none => rfl

end Ics23.Go
