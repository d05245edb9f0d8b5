import Ics23.Hashes
import Ics23.Proto

/-!
# Messages and machine arithmetic of the Rust crate

The proof messages of `cosmos.ics23.v1.rs`, with `i32` fields as `Int32` and `Vec<u8>` as `Bytes`,
and the arithmetic the verifier does on their fields.  Locals of type `i32` and `usize` are
integers and naturals here; every operation on them that can overflow is checked, as in a build
with overflow checks, and panics outside the range of its type.  Lengths of vectors are naturals:
no vector is longer than `isize::MAX`, so that a length always fits a `usize`.
-/

namespace Ics23.Rust

/-- The panics of the modelled code. -/
inductive Panic where
  | overflow
  | divisionByZero
  | unwrapNone
  | sliceIndex
  deriving DecidableEq, Repr

/-- `anyhow::Result`, the error being its message. -/
abbrev Result := Outcome Panic String

/-- Computations that hash, with the strings handed to SHA-256. -/
abbrev Hashing := Logged Bytes Panic String

/-- The `ensure!` macro. -/
abbrev ensure (c : Prop) [Decidable c] (msg : String) : Result Unit := Outcome.ensure c msg

/-- The `bail!` macro. -/
abbrev bail {α : Type} (msg : String) : Result α := .err msg

/-- `Option::ok_or_else` with an `anyhow!` message. -/
def okOr {α : Type} (x : Option α) (msg : String) : Result α :=
  match x with
  | some a => .ok a
  | none => .err msg

theorem okOr_eq_ok {α : Type} {x : Option α} {msg : String} {a : α} :
    okOr x msg = .ok a ↔ x = some a := by
  cases x <;> simp [okOr]

theorem okOr_ne_panic {α : Type} {x : Option α} {msg : String} {p : Panic} :
    okOr x msg ≠ .panic p := by
  cases x <;> simp [okOr]

/-! ## Machine arithmetic -/

def InI32 (x : ℤ) : Prop := -2 ^ 31 ≤ x ∧ x < 2 ^ 31

instance (x : ℤ) : Decidable (InI32 x) := inferInstanceAs (Decidable (_ ∧ _))

def addI32 (a b : ℤ) : Result ℤ := if InI32 (a + b) then .ok (a + b) else .panic .overflow

def mulI32 (a b : ℤ) : Result ℤ := if InI32 (a * b) then .ok (a * b) else .panic .overflow

def addUsize (a b : ℕ) : Result ℕ := if a + b < 2 ^ 64 then .ok (a + b) else .panic .overflow

def subUsize (a b : ℕ) : Result ℕ := if b ≤ a then .ok (a - b) else .panic .overflow

def mulUsize (a b : ℕ) : Result ℕ := if a * b < 2 ^ 64 then .ok (a * b) else .panic .overflow

def remUsize (a b : ℕ) : Result ℕ := if b = 0 then .panic .divisionByZero else .ok (a % b)

/-- The cast `x as usize` of an `i32`, which extends the sign. -/
def asUsize (x : ℤ) : ℕ := (x % 2 ^ 64).toNat

/-- The cast `n as i32` of a `usize`, which keeps the low 32 bits. -/
def asI32 (n : ℕ) : ℤ := (Int32.ofNat n).toInt

/-- The slice `b[i..j]`. -/
def slice (b : Bytes) (i j : ℕ) : Result Bytes :=
  if i ≤ j ∧ j ≤ b.length then .ok ((b.drop i).take (j - i)) else .panic .sliceIndex

theorem addUsize_eq {a b : ℕ} (h : a + b < 2 ^ 64) : addUsize a b = .ok (a + b) := if_pos h

theorem subUsize_eq {a b : ℕ} (h : b ≤ a) : subUsize a b = .ok (a - b) := if_pos h

theorem mulUsize_eq {a b : ℕ} (h : a * b < 2 ^ 64) : mulUsize a b = .ok (a * b) := if_pos h

theorem remUsize_eq {a b : ℕ} (h : b ≠ 0) : remUsize a b = .ok (a % b) := if_neg h

theorem slice_eq {b : Bytes} {i j : ℕ} (h : i ≤ j ∧ j ≤ b.length) :
    slice b i j = .ok ((b.drop i).take (j - i)) := if_pos h

theorem addI32_eq_ok {a b c : ℤ} : addI32 a b = .ok c ↔ InI32 (a + b) ∧ a + b = c := by
  unfold addI32
  split_ifs with h <;> simp [h]

theorem mulI32_eq_ok {a b c : ℤ} : mulI32 a b = .ok c ↔ InI32 (a * b) ∧ a * b = c := by
  unfold mulI32
  split_ifs with h <;> simp [h]

theorem subUsize_eq_ok {a b c : ℕ} : subUsize a b = .ok c ↔ b ≤ a ∧ a - b = c := by
  unfold subUsize
  split_ifs with h <;> simp [h]

theorem remUsize_eq_ok {a b c : ℕ} : remUsize a b = .ok c ↔ b ≠ 0 ∧ a % b = c := by
  unfold remUsize
  split_ifs with h <;> simp [h]

theorem slice_eq_ok {b x : Bytes} {i j : ℕ} :
    slice b i j = .ok x ↔ (i ≤ j ∧ j ≤ b.length) ∧ (b.drop i).take (j - i) = x := by
  unfold slice
  split_ifs with h <;> simp [h]

theorem asUsize_natCast {n : ℕ} (h : n < 2 ^ 64) : asUsize (n : ℤ) = n := by
  unfold asUsize
  omega

theorem asUsize_ofNat {n : ℕ} (h : n < 2 ^ 31) : asUsize (Int32.ofNat n).toInt = n := by
  rw [Int32.toInt_ofNat_of_lt h]
  exact asUsize_natCast (by omega)

theorem asUsize_of_nonneg {x : Int32} (h : 0 ≤ x.toInt) : (asUsize x.toInt : ℤ) = x.toInt := by
  have := x.toInt_lt
  unfold asUsize
  omega

/-! ## Messages -/

structure InnerOp where
  hash : Int32
  prefix_ : Bytes
  suffix : Bytes
  deriving DecidableEq, Repr

/-- The getter of an enumeration field: unknown numbers read as the default. -/
def hashOpOf (x : Int32) : HashOp := (HashOp.ofInt32 x).getD .noHash

def lengthOpOf (x : Int32) : LengthOp := (LengthOp.ofInt32 x).getD .noPrefix

structure ExistenceProof where
  key : Bytes
  value : Bytes
  leaf : Option LeafOp
  path : List InnerOp
  deriving DecidableEq, Repr

structure NonExistenceProof where
  key : Bytes
  left : Option ExistenceProof
  right : Option ExistenceProof
  deriving DecidableEq, Repr

/-- `BatchEntry`, with the member of its oneof. -/
inductive BatchEntry where
  | exist (ex : ExistenceProof)
  | nonexist (non : NonExistenceProof)
  | none
  deriving DecidableEq, Repr

structure BatchProof where
  entries : List BatchEntry
  deriving DecidableEq, Repr

structure CompressedExistenceProof where
  key : Bytes
  value : Bytes
  leaf : Option LeafOp
  path : List Int32
  deriving DecidableEq, Repr

structure CompressedNonExistenceProof where
  key : Bytes
  left : Option CompressedExistenceProof
  right : Option CompressedExistenceProof
  deriving DecidableEq, Repr

inductive CompressedBatchEntry where
  | exist (ex : CompressedExistenceProof)
  | nonexist (non : CompressedNonExistenceProof)
  | none
  deriving DecidableEq, Repr

structure CompressedBatchProof where
  entries : List CompressedBatchEntry
  lookupInners : List InnerOp
  deriving DecidableEq, Repr

/-- `CommitmentProof`, with the member of its oneof. -/
inductive CommitmentProof where
  | exist (ex : ExistenceProof)
  | nonexist (non : NonExistenceProof)
  | batch (batch : BatchProof)
  | compressed (compressed : CompressedBatchProof)
  | none
  deriving DecidableEq, Repr

/-- The varint functions of the `prost` crate: the LEB128 codec of 64-bit values. -/
structure Prost where
  decodeVarint : Bytes → Option (ℕ × Bytes)
  encodeVarint : ℕ → Bytes
  decodeVarint_eq : ∀ b, decodeVarint b = Leb128.decode b
  encodeVarint_eq : ∀ n, encodeVarint n = Leb128.encode n

def Prost.leb128 : Prost where
  decodeVarint := Leb128.decode
  encodeVarint := Leb128.encode
  decodeVarint_eq _ := rfl
  encodeVarint_eq _ := rfl

end Ics23.Rust
