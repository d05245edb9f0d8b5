import Ics23.Go.Pb

/-!
# Marshalling

The methods of `proofs.pb.go` that write a message.  They fill a buffer from its end: `i` is where
the part that is written begins, a nested message goes before it and is followed, towards the
beginning, by its length and its key.

`Emits w b` says that `w` puts the bytes `b` in front of what is written, and nothing else changes.
From the emitted fields follows what each message writes (`emits_wire`), and `Marshal` returns the
encoding of a message, having written every byte of a buffer of its size.
-/

namespace Ics23.Go

open Wire Outcome

/-! ## Writing into a buffer -/

/-- The assignment `dAtA[i] = b`. -/
def setByte (dAtA : Bytes) (i : ℤ) (b : UInt8) : Result Bytes :=
  if 0 ≤ i ∧ i < dAtA.length then .ok (dAtA.set i.toNat b) else .panic .outOfRange

/-- The call `copy(dAtA[i:], b)`, which copies no more than fits. -/
def copyBytes (dAtA : Bytes) (i : ℤ) (b : Bytes) : Result Bytes :=
  if 0 ≤ i ∧ i ≤ dAtA.length then
    .ok (dAtA.take i.toNat ++ b.take (dAtA.length - i.toNat) ++ dAtA.drop (i.toNat + b.length))
  else .panic .outOfRange

/-- The loop that writes a varint from an offset on, and the offset after it.  `v` is a `uint64`. -/
def putVarint (dAtA : Bytes) (offset : ℤ) (v : ℕ) : Result (Bytes × ℤ) :=
  if 2 ^ 7 ≤ v then do
    let dAtA ← setByte dAtA offset (UInt8.ofNat (v &&& 0x7f ||| 0x80))
    putVarint dAtA (offset + 1) (v >>> 7)
  else do
    let dAtA ← setByte dAtA offset (UInt8.ofNat v)
    return (dAtA, offset + 1)
termination_by v
decreasing_by rw [Nat.shiftRight_eq_div_pow]; omega

def encodeVarintProofs (dAtA : Bytes) (offset : ℤ) (v : ℕ) : Result (Bytes × ℤ) := do
  let offset := offset - sovProofs v
  let base := offset
  let (dAtA, _) ← putVarint dAtA offset v
  return (dAtA, base)

/-- What a method that writes does to its variables `dAtA` and `i`. -/
abbrev Write := Bytes × ℤ → Result (Bytes × ℤ)

/-- The methods `MarshalToSizedBuffer`: what they make of a buffer, and how much they write. -/
abbrev MarshalToSizedBuffer := Bytes → Result (Bytes × ℤ)

/-- Write the key of a field. -/
def putKey (key : UInt8) : Write := fun (dAtA, i) => do
  let i := i - 1
  let dAtA ← setByte dAtA i key
  return (dAtA, i)

/-- Write a varint and the key of a field in front of it. -/
def putVarintKey (key : UInt8) (v : ℕ) : Write := fun (dAtA, i) =>
  encodeVarintProofs dAtA i v >>= putKey key

/-- Copy bytes. -/
def putRaw (b : Bytes) : Write := fun (dAtA, i) => do
  let i := i - b.length
  let dAtA ← copyBytes dAtA i b
  return (dAtA, i)

def putInt32 (key : UInt8) (x : Int32) : Write := if x ≠ 0 then putVarintKey key (uint64 x) else .ok

def putBool (key : UInt8) (x : Bool) : Write :=
  -- the byte is written by the same lines as a key
  if x then putKey (if x then 1 else 0) >=> putKey key else .ok

def putBytes (key : UInt8) (b : Bytes) : Write :=
  if b.length > 0 then putRaw b >=> putVarintKey key b.length else .ok

/-- The nested block for a message, which writes into the slice `dAtA[:i]`. -/
def putMessage (key : UInt8) (marshalToSizedBuffer : MarshalToSizedBuffer) : Write :=
  fun (dAtA, i) => do
    let (head, size) ← marshalToSizedBuffer (← slice dAtA 0 i)
    let dAtA := head ++ dAtA.drop i.toNat
    let i := i - size
    putVarintKey key size.toNat (dAtA, i)

def putOption {α : Type} (key : UInt8) (marshalToSizedBuffer : α → MarshalToSizedBuffer)
    (m : Option α) : Write :=
  match m with
  | none => .ok
  | some x => putMessage key (marshalToSizedBuffer x)

/-- The loop over a repeated message, from the last to the first. -/
def putRepeated {α : Type} (key : UInt8) (marshalToSizedBuffer : α → MarshalToSizedBuffer) :
    List α → Write
  | [] => .ok
  | x :: xs => putRepeated key marshalToSizedBuffer xs >=> putMessage key (marshalToSizedBuffer x)

/-- The loop over packed integers, which writes them into a buffer of their own. -/
def putVarints (dAtA : Bytes) (j : ℤ) : List Int32 → Result (Bytes × ℤ)
  | [] => .ok (dAtA, j)
  | num :: nums => do
    let (dAtA, j) ← putVarint dAtA j (uint64 num)
    putVarints dAtA j nums

def putPacked (key : UInt8) (xs : List Int32) : Write := fun (dAtA, i) =>
  if xs.length > 0 then do
    let (packed, j) ← putVarints (List.replicate (xs.length * 10) 0) 0 xs
    let i := i - j
    let dAtA ← copyBytes dAtA i (← slice packed 0 j)
    putVarintKey key j.toNat (dAtA, i)
  else .ok (dAtA, i)

/-- The frame of a method `MarshalToSizedBuffer`. -/
def fill (write : Write) : MarshalToSizedBuffer := fun dAtA => do
  let (dAtA', i) ← write (dAtA, dAtA.length)
  return (dAtA', dAtA.length - i)

/-- The method `MarshalTo` of a member of a oneof, whose size is given. -/
def marshalTo (size : ℕ) (marshalToSizedBuffer : MarshalToSizedBuffer) : MarshalToSizedBuffer :=
  fun dAtA => do
    let (head, n) ← marshalToSizedBuffer (← slice dAtA 0 size)
    return (head ++ dAtA.drop size, n)

/-- The block for a oneof, which writes into the slice `dAtA[i:]`. -/
def putOneof (size : ℕ) (marshalToSizedBuffer : MarshalToSizedBuffer) : Write := fun (dAtA, i) => do
  let i := i - size
  let (tail, _) ← marshalTo size marshalToSizedBuffer (← slice dAtA i dAtA.length)
  return (dAtA.take i.toNat ++ tail, i)

/-- The methods `Marshal`. -/
def marshal (size : ℕ) (marshalToSizedBuffer : MarshalToSizedBuffer) : Result Bytes := do
  let dAtA := List.replicate size 0
  let (dAtA, n) ← marshalToSizedBuffer (← slice dAtA 0 size)
  slice dAtA 0 n

/-! ## The messages -/

def LeafOp.marshalToSizedBuffer (m : LeafOp) : MarshalToSizedBuffer := fill <|
  putBytes 0x2a m.prefix_ >=> putInt32 0x20 m.length >=> putInt32 0x18 m.prehashValue >=>
    putInt32 0x10 m.prehashKey >=> putInt32 0x8 m.hash

def InnerOp.marshalToSizedBuffer (m : InnerOp) : MarshalToSizedBuffer := fill <|
  putBytes 0x1a m.suffix.bytes >=> putBytes 0x12 m.prefix_ >=> putInt32 0x8 m.hash

def InnerSpec.marshalToSizedBuffer (m : InnerSpec) : MarshalToSizedBuffer := fill <|
  putInt32 0x30 m.hash >=> putBytes 0x2a m.emptyChild >=> putInt32 0x20 m.maxPrefixLength >=>
    putInt32 0x18 m.minPrefixLength >=> putInt32 0x10 m.childSize >=> putPacked 0xa m.childOrder

def ProofSpec.marshalToSizedBuffer (m : ProofSpec) : MarshalToSizedBuffer := fill <|
  putBool 0x28 m.prehashKeyBeforeComparison >=> putInt32 0x20 m.minDepth >=>
    putInt32 0x18 m.maxDepth >=> putOption 0x12 InnerSpec.marshalToSizedBuffer m.innerSpec >=>
    putOption 0xa LeafOp.marshalToSizedBuffer m.leafSpec

def ExistenceProof.marshalToSizedBuffer (m : ExistenceProof) : MarshalToSizedBuffer := fill <|
  putRepeated 0x22 InnerOp.marshalToSizedBuffer m.path >=>
    putOption 0x1a LeafOp.marshalToSizedBuffer m.leaf >=> putBytes 0x12 m.value >=>
    putBytes 0xa m.key.bytes

def NonExistenceProof.marshalToSizedBuffer (m : NonExistenceProof) : MarshalToSizedBuffer := fill <|
  putOption 0x1a ExistenceProof.marshalToSizedBuffer m.right >=>
    putOption 0x12 ExistenceProof.marshalToSizedBuffer m.left >=> putBytes 0xa m.key

def BatchEntry.marshalToSizedBuffer (m : BatchEntry) : MarshalToSizedBuffer := fill <|
  match m with
  | .exist ex => putOneof m.size (fill (putOption 0xa ExistenceProof.marshalToSizedBuffer ex))
  | .nonexist non =>
    putOneof m.size (fill (putOption 0x12 NonExistenceProof.marshalToSizedBuffer non))
  | .none => .ok

def BatchProof.marshalToSizedBuffer (m : BatchProof) : MarshalToSizedBuffer := fill <|
  putRepeated 0xa BatchEntry.marshalToSizedBuffer m.entries

def CompressedExistenceProof.marshalToSizedBuffer (m : CompressedExistenceProof) :
    MarshalToSizedBuffer := fill <|
  putPacked 0x22 m.path >=> putOption 0x1a LeafOp.marshalToSizedBuffer m.leaf >=>
    putBytes 0x12 m.value >=> putBytes 0xa m.key

def CompressedNonExistenceProof.marshalToSizedBuffer (m : CompressedNonExistenceProof) :
    MarshalToSizedBuffer := fill <|
  putOption 0x1a CompressedExistenceProof.marshalToSizedBuffer m.right >=>
    putOption 0x12 CompressedExistenceProof.marshalToSizedBuffer m.left >=> putBytes 0xa m.key

def CompressedBatchEntry.marshalToSizedBuffer (m : CompressedBatchEntry) :
    MarshalToSizedBuffer := fill <|
  match m with
  | .exist ex =>
    putOneof m.size (fill (putOption 0xa CompressedExistenceProof.marshalToSizedBuffer ex))
  | .nonexist non =>
    putOneof m.size (fill (putOption 0x12 CompressedNonExistenceProof.marshalToSizedBuffer non))
  | .none => .ok

def CompressedBatchProof.marshalToSizedBuffer (m : CompressedBatchProof) : MarshalToSizedBuffer :=
  fill <|
    putRepeated 0x12 InnerOp.marshalToSizedBuffer m.lookupInners >=>
      putRepeated 0xa CompressedBatchEntry.marshalToSizedBuffer m.entries

def Pb.CommitmentProof.marshalToSizedBuffer (m : Pb.CommitmentProof) : MarshalToSizedBuffer :=
  fill <|
    match m with
    | .exist ex => putOneof m.size (fill (putOption 0xa ExistenceProof.marshalToSizedBuffer ex))
    | .nonexist non =>
      putOneof m.size (fill (putOption 0x12 NonExistenceProof.marshalToSizedBuffer non))
    | .batch b => putOneof m.size (fill (putOption 0x1a BatchProof.marshalToSizedBuffer b))
    | .compressed c =>
      putOneof m.size (fill (putOption 0x22 CompressedBatchProof.marshalToSizedBuffer c))
    | .none => .ok

def LeafOp.marshal (m : LeafOp) : Result Bytes :=
  Go.marshal (LeafOp.size m) (LeafOp.marshalToSizedBuffer m)

def InnerOp.marshal (m : InnerOp) : Result Bytes := Go.marshal m.size m.marshalToSizedBuffer

def InnerSpec.marshal (m : InnerSpec) : Result Bytes :=
  Go.marshal (InnerSpec.size m) (InnerSpec.marshalToSizedBuffer m)

def ProofSpec.marshal (m : ProofSpec) : Result Bytes :=
  Go.marshal (ProofSpec.size m) (ProofSpec.marshalToSizedBuffer m)

def ExistenceProof.marshal (m : ExistenceProof) : Result Bytes :=
  Go.marshal m.size m.marshalToSizedBuffer

def NonExistenceProof.marshal (m : NonExistenceProof) : Result Bytes :=
  Go.marshal m.size m.marshalToSizedBuffer

def BatchEntry.marshal (m : BatchEntry) : Result Bytes := Go.marshal m.size m.marshalToSizedBuffer

def BatchProof.marshal (m : BatchProof) : Result Bytes := Go.marshal m.size m.marshalToSizedBuffer

def CompressedExistenceProof.marshal (m : CompressedExistenceProof) : Result Bytes :=
  Go.marshal m.size m.marshalToSizedBuffer

def CompressedNonExistenceProof.marshal (m : CompressedNonExistenceProof) : Result Bytes :=
  Go.marshal m.size m.marshalToSizedBuffer

def CompressedBatchEntry.marshal (m : CompressedBatchEntry) : Result Bytes :=
  Go.marshal m.size m.marshalToSizedBuffer

def CompressedBatchProof.marshal (m : CompressedBatchProof) : Result Bytes :=
  Go.marshal m.size m.marshalToSizedBuffer

def Pb.CommitmentProof.marshal (m : Pb.CommitmentProof) : Result Bytes :=
  Go.marshal m.size m.marshalToSizedBuffer

/-! ## What is written -/

/-- `w` writes `b` in front of what is written already. -/
def Emits (w : Write) (b : Bytes) : Prop :=
  ∀ front old back : Bytes, old.length = b.length →
    w (front ++ (old ++ back), front.length + b.length) = .ok (front ++ (b ++ back), front.length)

/-- `w` writes `b` at the end of a buffer. -/
def Fills (w : MarshalToSizedBuffer) (b : Bytes) : Prop :=
  ∀ front old : Bytes, old.length = b.length → w (front ++ old) = .ok (front ++ b, b.length)

/-- The number and the wire type of a field fit into the byte `k`. -/
abbrev IsKey (num wireType : ℕ) (k : UInt8) : Prop := num * 8 + wireType = k.toNat ∧ k.toNat < 128

theorem IsKey.tag_eq {num wireType : ℕ} {k : UInt8} (h : IsKey num wireType k) :
    tag num wireType = [k] := by
  rw [Wire.tag_eq (h.1.trans_lt h.2), h.1, UInt8.ofNat_toNat]

theorem slice_front (front back : Bytes) : slice (front ++ back) 0 front.length = .ok front := by
  simp [slice]

theorem slice_back (front back : Bytes) :
    slice (front ++ back) front.length (front ++ back).length = .ok back := by
  simp [slice]

theorem setByte_append (front back : Bytes) (old b : UInt8) :
    setByte (front ++ old :: back) front.length b = .ok (front ++ b :: back) := by
  rw [setByte, if_pos (by simp), Int.toNat_natCast, List.set_append_right _ _ le_rfl, Nat.sub_self,
    List.set_cons_zero]

theorem copyBytes_append {front old back b : Bytes} (h : old.length = b.length) :
    copyBytes (front ++ (old ++ back)) front.length b = .ok (front ++ (b ++ back)) := by
  have hroom : b.take ((front ++ (old ++ back)).length - front.length) = b :=
    List.take_of_length_le (by simp only [List.length_append]; omega)
  rw [copyBytes, if_pos (by rw [List.length_append]; omega), Int.toNat_natCast, hroom,
    List.take_left, ← h, ← List.drop_drop, List.drop_left, List.drop_left, List.append_assoc]

theorem low_group (v : ℕ) : v &&& 0x7f ||| 0x80 = v % 128 + 128 := by
  have hor : 2 ^ 7 * 1 + v % 2 ^ 7 = 2 ^ 7 * 1 ||| v % 2 ^ 7 :=
    Nat.two_pow_add_eq_or_of_lt (Nat.mod_lt _ (by omega)) 1
  rw [show (0x7f : ℕ) = 2 ^ 7 - 1 from rfl, Nat.and_two_pow_sub_one_eq_mod, Nat.or_comm]
  exact hor.symm.trans (Nat.add_comm _ _)

theorem putVarint_append (v : ℕ) (front : Bytes) {old : Bytes} (back : Bytes)
    (h : old.length = (Leb128.encode v).length) :
    putVarint (front ++ (old ++ back)) front.length v =
      .ok (front ++ (Leb128.encode v ++ back), front.length + (Leb128.encode v).length) := by
  induction v using Nat.strong_induction_on generalizing front old with
  | _ v ih =>
    have hpos := Leb128.encode_length_pos v
    obtain ⟨x, old, rfl⟩ := List.exists_cons_of_length_pos (l := old) (by omega)
    rw [putVarint]
    rw [List.cons_append, setByte_append, setByte_append, ok_bind, ok_bind]
    split_ifs with hv
    · rw [Leb128.encode_of_le (n := v) hv, List.length_cons] at h ⊢
      have hnext := ih (v / 128) (by omega) (front ++ [UInt8.ofNat (v % 128 + 128)])
        (Nat.succ.inj h)
      rw [low_group, Nat.shiftRight_eq_div_pow]
      simp only [List.append_assoc, List.singleton_append, List.length_append,
        List.length_singleton, Nat.cast_add, Nat.cast_one] at hnext
      rw [hnext]
      simp only [List.cons_append, Nat.cast_add, Nat.cast_one, ok.injEq, Prod.mk.injEq, true_and]
      omega
    · rw [Leb128.encode_of_lt (by omega), List.length_singleton] at h ⊢
      obtain rfl : old = [] := by simpa using h
      simp

theorem exists_append_of_length {α : Type} {l : List α} {m n : ℕ} (h : l.length = m + n) :
    ∃ a b, l = a ++ b ∧ a.length = m ∧ b.length = n :=
  ⟨l.take m, l.drop m, (List.take_append_drop m l).symm, by rw [List.length_take]; omega, by
    rw [List.length_drop]; omega⟩

namespace Emits

theorem nothing : Emits .ok [] := by
  intro front old back h
  obtain rfl := List.length_eq_zero_iff.1 h
  simp

/-- What is written later stands before what is written earlier. -/
theorem comp {w w' : Write} {b b' : Bytes} (h : Emits w b) (h' : Emits w' b') :
    Emits (w >=> w') (b' ++ b) := by
  intro front old back hold
  rw [List.length_append] at hold
  obtain ⟨old', old, rfl, hold', hold⟩ := exists_append_of_length hold
  have hfirst := h (front ++ old') old back hold
  have hsecond := h' front old' (b ++ back) hold'
  have hindex : (front.length : ℤ) + (b' ++ b).length = (front ++ old').length + b.length := by
    simp only [List.length_append, hold', Nat.cast_add]
    ring
  show (w _ >>= w') = _
  rw [hindex, List.append_assoc old', ← List.append_assoc front, hfirst, ok_bind,
    List.append_assoc front, List.length_append, hold', Nat.cast_add, hsecond, List.append_assoc]

theorem key (k : UInt8) : Emits (putKey k) [k] := by
  intro front old back hold
  obtain ⟨x, rfl⟩ := List.length_eq_one_iff.1 hold
  simp [putKey, setByte_append]

theorem raw (b : Bytes) : Emits (putRaw b) b := by
  intro front old back hold
  simp only [putRaw, add_sub_cancel_right, copyBytes_append hold, ok_bind, pure_eq]

theorem varintKey (k : UInt8) (v : ℕ) : Emits (putVarintKey k v) ([k] ++ Leb128.encode v) := by
  have hvarint : Emits (fun s => encodeVarintProofs s.1 s.2 v) (Leb128.encode v) := by
    intro front old back hold
    have hoffset : (front.length : ℤ) + (Leb128.encode v).length - sovProofs v = front.length := by
      rw [sovProofs_eq]
      ring
    simp only [encodeVarintProofs, hoffset, putVarint_append v front back hold, ok_bind, pure_eq]
  exact hvarint.comp (key k)

theorem int32 {num : ℕ} {k : UInt8} (h : IsKey num 0 k) (x : Int32) :
    Emits (putInt32 k x) (numberField num (uint64 x)) := by
  unfold putInt32 numberField
  by_cases hx : x = 0
  · rw [if_neg (not_not.2 hx), if_pos (uint64_eq_zero.2 hx)]
    exact nothing
  · rw [if_pos hx, if_neg (mt uint64_eq_zero.1 hx), h.tag_eq]
    exact varintKey k _

theorem bool {num : ℕ} {k : UInt8} (h : IsKey num 0 k) (x : Bool) :
    Emits (putBool k x) (numberField num x.toNat) := by
  cases x with
  | false => exact nothing
  | true =>
    have hone : numberField num 1 = [k] ++ [1] := by
      rw [numberField, if_neg one_ne_zero, h.tag_eq, Leb128.encode_of_lt (by omega)]
      rfl
    rw [Bool.toNat_true, hone]
    exact (key 1).comp (key k)

theorem bytes {num : ℕ} {k : UInt8} (h : IsKey num 2 k) (b : Bytes) :
    Emits (putBytes k b) (bytesField num b) := by
  unfold putBytes bytesField
  by_cases hb : b = []
  · rw [if_neg (by simp [hb]), if_pos hb]
    exact nothing
  · rw [if_pos (List.length_pos_iff.2 hb), if_neg hb, lengthField, h.tag_eq, ← List.append_assoc]
    exact (raw b).comp (varintKey k _)

/-- A nested message is written into the part of the buffer that is left. -/
theorem message {num : ℕ} {k : UInt8} {w : MarshalToSizedBuffer} {b : Bytes}
    (h : IsKey num 2 k) (hw : Fills w b) : Emits (putMessage k w) (lengthField num b) := by
  rw [lengthField, h.tag_eq, ← List.append_assoc]
  have hkey := varintKey k b.length
  generalize [k] ++ Leb128.encode b.length = header at hkey ⊢
  intro front old back hold
  rw [List.length_append] at hold
  obtain ⟨head, old, rfl, hhead, hold⟩ := exists_append_of_length hold
  have hwrite := hw (front ++ head) old hold
  have hrest := hkey front head (b ++ back) hhead
  have hindex : (front.length : ℤ) + (header ++ b).length = (front ++ head ++ old).length := by
    simp only [List.length_append, hold, hhead, Nat.cast_add]
    ring
  have hafter : ((front ++ head ++ old).length : ℤ) - b.length = front.length + header.length := by
    simp only [List.length_append, hold, hhead, Nat.cast_add]
    ring
  simp only [← List.append_assoc] at hrest ⊢
  rw [putMessage, hindex, slice_front, ok_bind, hwrite, ok_bind]
  simp only [Int.toNat_natCast, List.drop_left, hafter]
  exact hrest

theorem option {α : Type} {num : ℕ} {k : UInt8} {w : α → MarshalToSizedBuffer} {wire : α → Bytes}
    (h : IsKey num 2 k) (hw : ∀ x, Fills (w x) (wire x)) (m : Option α) :
    Emits (putOption k w m) (optionField num (m.map wire)) := by
  cases m with
  | none => exact nothing
  | some x => exact message h (hw x)

theorem repeated {α : Type} {num : ℕ} {k : UInt8} {w : α → MarshalToSizedBuffer} {wire : α → Bytes}
    (h : IsKey num 2 k) (hw : ∀ x, Fills (w x) (wire x)) (ms : List α) :
    Emits (putRepeated k w ms) (repeatedField num (ms.map wire)) := by
  induction ms with
  | nil => exact nothing
  | cons m ms ih => exact ih.comp (message h (hw m))

theorem fills {w : Write} {b : Bytes} (h : Emits w b) : Fills (fill w) b := by
  intro front old hold
  have hrun := h front old [] hold
  have hindex : ((front ++ old).length : ℤ) = front.length + b.length := by
    rw [List.length_append, hold, Nat.cast_add]
  simp only [List.append_nil] at hrun
  simp only [fill, hindex, hrun, ok_bind, pure_eq]
  simp

/-- A member of a oneof of the size of its encoding. -/
theorem oneof {w : MarshalToSizedBuffer} {b : Bytes} {n : ℕ} (h : Fills w b) (hn : b.length = n) :
    Emits (putOneof n w) b := by
  subst hn
  intro front old back hold
  have hwrite := h [] old hold
  rw [List.nil_append, List.nil_append] at hwrite
  have hto : marshalTo b.length w (old ++ back) = .ok (b ++ back, b.length) := by
    rw [marshalTo, ← hold, slice_front, ok_bind, hwrite]
    simp [hold]
  simp only [putOneof, add_sub_cancel_right, slice_back, ok_bind, hto, Int.toNat_natCast,
    List.take_left, pure_eq]

end Emits

/-! ## Packed integers -/

theorem putVarints_append (xs : List Int32) (front : Bytes) {old : Bytes} (back : Bytes)
    (h : old.length = ((xs.map uint64).flatMap Leb128.encode).length) :
    putVarints (front ++ (old ++ back)) front.length xs =
      .ok (front ++ ((xs.map uint64).flatMap Leb128.encode ++ back),
        front.length + ((xs.map uint64).flatMap Leb128.encode).length) := by
  induction xs generalizing front old with
  | nil =>
    obtain rfl := List.length_eq_zero_iff.1 h
    simp [putVarints]
  | cons x xs ih =>
    rw [List.map_cons, List.flatMap_cons, List.length_append] at h
    obtain ⟨first, old, rfl, hfirst, hold⟩ := exists_append_of_length h
    have hrest := ih (front ++ Leb128.encode (uint64 x)) hold
    rw [List.length_append, Nat.cast_add] at hrest
    simp only [List.append_assoc] at hrest ⊢
    rw [putVarints, putVarint_append _ front _ hfirst, ok_bind]
    simp only [hrest, List.map_cons, List.flatMap_cons, List.append_assoc, List.length_append,
      Nat.cast_add, add_assoc]

theorem uint64_lt (x : Int32) : uint64 x < 2 ^ 64 := by
  unfold uint64
  omega

theorem length_flatMap_encode_le (xs : List Int32) :
    ((xs.map uint64).flatMap Leb128.encode).length ≤ xs.length * 10 := by
  induction xs with
  | nil => simp
  | cons x xs ih =>
    have hx := Leb128.length_encode_le 9 ((uint64_lt x).trans (by norm_num))
    rw [List.map_cons, List.flatMap_cons, List.length_append, List.length_cons]
    omega

namespace Emits

/-- The buffer for packed integers is large enough. -/
theorem packed {num : ℕ} {k : UInt8} (h : IsKey num 2 k) (xs : List Int32) :
    Emits (putPacked k xs) (packedField num (xs.map uint64)) := by
  by_cases hxs : xs = []
  · subst hxs
    exact nothing
  · have hlen := length_flatMap_encode_le xs
    obtain ⟨old, back, hbuffer, hold, -⟩ := exists_append_of_length
      (l := List.replicate (xs.length * 10) (0 : UInt8))
      (m := ((xs.map uint64).flatMap Leb128.encode).length)
      (n := xs.length * 10 - ((xs.map uint64).flatMap Leb128.encode).length)
      (by rw [List.length_replicate]; omega)
    have hrun := putVarints_append xs [] back hold
    simp only [List.nil_append, List.length_nil, Nat.cast_zero, zero_add, ← hbuffer] at hrun
    have hput : putPacked k xs = putRaw ((xs.map uint64).flatMap Leb128.encode) >=>
        putVarintKey k ((xs.map uint64).flatMap Leb128.encode).length := by
      funext s
      simp only [putPacked, if_pos (List.length_pos_iff.2 hxs), hrun, ok_bind, slice_front,
        Int.toNat_natCast, Bind.kleisliRight, putRaw, bind_assoc, pure_bind]
    rw [hput, packedField, if_neg (by simpa using hxs), lengthField, h.tag_eq, ← List.append_assoc]
    exact (raw _).comp (varintKey k _)

end Emits

/-! ## What the messages write -/

theorem LeafOp.fills (m : LeafOp) : Fills (LeafOp.marshalToSizedBuffer m) (LeafOp.wire m) := by
  refine Emits.fills ?_
  simp only [LeafOp.wire, ← List.append_assoc]
  exact (Emits.bytes (by decide) _).comp <|
    (Emits.int32 (by decide) _).comp <| (Emits.int32 (by decide) _).comp <|
    (Emits.int32 (by decide) _).comp (Emits.int32 (by decide) _)

theorem InnerOp.fills (m : InnerOp) : Fills m.marshalToSizedBuffer m.wire := by
  refine Emits.fills ?_
  simp only [InnerOp.wire, ← List.append_assoc]
  exact (Emits.bytes (by decide) _).comp <|
    (Emits.bytes (by decide) _).comp (Emits.int32 (by decide) _)

theorem InnerSpec.fills (m : InnerSpec) :
    Fills (InnerSpec.marshalToSizedBuffer m) (InnerSpec.wire m) := by
  refine Emits.fills ?_
  simp only [InnerSpec.wire, ← List.append_assoc]
  exact (Emits.int32 (by decide) _).comp <|
    (Emits.bytes (by decide) _).comp <| (Emits.int32 (by decide) _).comp <|
    (Emits.int32 (by decide) _).comp <| (Emits.int32 (by decide) _).comp
      (Emits.packed (by decide) _)

theorem ProofSpec.fills (m : ProofSpec) :
    Fills (ProofSpec.marshalToSizedBuffer m) (ProofSpec.wire m) := by
  refine Emits.fills ?_
  simp only [ProofSpec.wire, ← List.append_assoc]
  exact (Emits.bool (by decide) _).comp <|
    (Emits.int32 (by decide) _).comp <| (Emits.int32 (by decide) _).comp <|
    (Emits.option (by decide) InnerSpec.fills _).comp
      (Emits.option (by decide) LeafOp.fills _)

theorem ExistenceProof.fills (m : ExistenceProof) : Fills m.marshalToSizedBuffer m.wire := by
  refine Emits.fills ?_
  simp only [ExistenceProof.wire, ← List.append_assoc]
  exact (Emits.repeated (by decide) InnerOp.fills _).comp <|
    (Emits.option (by decide) LeafOp.fills _).comp <|
    (Emits.bytes (by decide) _).comp (Emits.bytes (by decide) _)

theorem NonExistenceProof.fills (m : NonExistenceProof) :
    Fills m.marshalToSizedBuffer m.wire := by
  refine Emits.fills ?_
  simp only [NonExistenceProof.wire, ← List.append_assoc]
  exact (Emits.option (by decide) ExistenceProof.fills _).comp <|
    (Emits.option (by decide) ExistenceProof.fills _).comp
      (Emits.bytes (by decide) _)

/-- A oneof with an embedded message. -/
theorem Emits.member {α : Type} {num n : ℕ} {k : UInt8} {w : α → MarshalToSizedBuffer}
    {wire : α → Bytes} (h : IsKey num 2 k) (hw : ∀ x, Fills (w x) (wire x)) {m : Option α}
    (hn : (optionField num (m.map wire)).length = n) :
    Emits (putOneof n (fill (putOption k w m))) (optionField num (m.map wire)) :=
  oneof (option h hw m).fills hn

theorem BatchEntry.fills (m : BatchEntry) : Fills m.marshalToSizedBuffer m.wire := by
  refine Emits.fills ?_
  have hlen := m.length_wire
  cases m with
  | exist ex => exact .member (by decide) ExistenceProof.fills hlen
  | nonexist non => exact .member (by decide) NonExistenceProof.fills hlen
  | none => exact .nothing

theorem BatchProof.fills (m : BatchProof) : Fills m.marshalToSizedBuffer m.wire :=
  (Emits.repeated (by decide) BatchEntry.fills _).fills

theorem CompressedExistenceProof.fills (m : CompressedExistenceProof) :
    Fills m.marshalToSizedBuffer m.wire := by
  refine Emits.fills ?_
  simp only [CompressedExistenceProof.wire, ← List.append_assoc]
  exact (Emits.packed (by decide) _).comp <|
    (Emits.option (by decide) LeafOp.fills _).comp <|
    (Emits.bytes (by decide) _).comp (Emits.bytes (by decide) _)

theorem CompressedNonExistenceProof.fills (m : CompressedNonExistenceProof) :
    Fills m.marshalToSizedBuffer m.wire := by
  refine Emits.fills ?_
  simp only [CompressedNonExistenceProof.wire, ← List.append_assoc]
  exact (Emits.option (by decide) CompressedExistenceProof.fills _).comp <|
    (Emits.option (by decide) CompressedExistenceProof.fills _).comp
      (Emits.bytes (by decide) _)

theorem CompressedBatchEntry.fills (m : CompressedBatchEntry) :
    Fills m.marshalToSizedBuffer m.wire := by
  refine Emits.fills ?_
  have hlen := m.length_wire
  cases m with
  | exist ex => exact .member (by decide) CompressedExistenceProof.fills hlen
  | nonexist non => exact .member (by decide) CompressedNonExistenceProof.fills hlen
  | none => exact .nothing

theorem CompressedBatchProof.fills (m : CompressedBatchProof) :
    Fills m.marshalToSizedBuffer m.wire :=
  ((Emits.repeated (by decide) InnerOp.fills _).comp
    (Emits.repeated (by decide) CompressedBatchEntry.fills _)).fills

theorem Pb.CommitmentProof.fills (m : Pb.CommitmentProof) :
    Fills m.marshalToSizedBuffer m.wire := by
  refine Emits.fills ?_
  have hlen := m.length_wire
  cases m with
  | exist ex => exact .member (by decide) ExistenceProof.fills hlen
  | nonexist non => exact .member (by decide) NonExistenceProof.fills hlen
  | batch b => exact .member (by decide) BatchProof.fills hlen
  | compressed c => exact .member (by decide) CompressedBatchProof.fills hlen
  | none => exact .nothing

/-- `Marshal` returns what is written into a buffer of the right size. -/
theorem marshal_eq {w : MarshalToSizedBuffer} {b : Bytes} {n : ℕ} (h : Fills w b)
    (hn : b.length = n) : marshal n w = .ok b := by
  subst hn
  have hlen : (List.replicate b.length (0 : UInt8)).length = b.length := List.length_replicate
  have hall := slice_front (List.replicate b.length 0) []
  have hend := slice_front b []
  have hrun := h [] _ hlen
  rw [List.append_nil] at hall hend
  rw [hlen] at hall
  rw [List.nil_append, List.nil_append] at hrun
  rw [marshal, hall, ok_bind, hrun, ok_bind]
  exact hend

end Ics23.Go
