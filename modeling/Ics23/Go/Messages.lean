import Ics23.Hashes
import Ics23.Proto

/-!
# Messages and run-time conventions of the Go module

The proof messages of `proofs.pb.go` and what the verifier needs of the language.  Pointers that may
be nil are options, except that a path has no nil steps and that a spec is given.  A slice of bytes
is its contents, with no bytes behind them up to its capacity (`Go/Capacity.lean` says where these
would make a difference); where the code tells a nil slice from an empty one it is a `Slice`.  An
`int` is an integer, brought back to 64 bits after every operation that can leave them; lengths and
loop counters always fit.
-/

namespace Ics23.Go

/-- The panics of the modelled code: run-time errors, and calls of `panic` with an error. -/
inductive Panic where
  | nilDereference
  | outOfRange
  | divideByZero
  | raised (msg : String)
  deriving DecidableEq, Repr

/-- A result that comes with an `error`, the error being its message. -/
abbrev Result := Outcome Panic String

/-- Computations that hash, with the strings handed to SHA-256. -/
abbrev Hashing := Logged Bytes Panic String

/-- Return an error unless the condition holds. -/
abbrev ensure (c : Prop) [Decidable c] (msg : String) : Result Unit := Outcome.ensure c msg

/-- Return the error of a check that is made under a condition. -/
def checkIf (c : Bool) (check : Result Unit) : Result Unit := if c then check else .ok ()

abbrev fail {α : Type} (msg : String) : Result α := .err msg

/-- `fmt.Errorf` with the verb `%w` at the end of its format. -/
abbrev wrap {α : Type} (msg : String) (x : Result α) : Result α := x.mapErr (msg ++ ·)

/-- Go through a pointer. -/
def deref {α : Type} (x : Option α) : Result α :=
  match x with
  | some a => .ok a
  | none => .panic .nilDereference

theorem checkIf_eq_ok {c : Bool} {check : Result Unit} :
    checkIf c check = .ok () ↔ (c → check = .ok ()) := by
  cases c <;> simp [checkIf]

theorem noPanic_checkIf {c : Bool} {check : Result Unit} (h : check.NoPanic) :
    (checkIf c check).NoPanic := by
  cases c with
  | true => exact h
  | false => exact Outcome.noPanic_ok ()

/-! ## Machine arithmetic -/

/-- The value of an `int` expression, which wraps around at 64 bits. -/
def int (x : ℤ) : ℤ := x.bmod (2 ^ 64)

theorem int_eq {x : ℤ} (h : -2 ^ 63 ≤ x ∧ x < 2 ^ 63) : int x = x :=
  Int.bmod_eq_of_le (by omega) (by omega)

theorem int_natCast {n : ℕ} (h : n < 2 ^ 63) : int n = n := int_eq (by omega)

theorem int_lt (x : ℤ) : int x < 2 ^ 63 := by
  rw [int, Int.bmod_def]
  split_ifs <;> omega

/-- The remainder `a % b` of two `int`s. -/
def remInt (a b : ℤ) : Result ℤ := if b = 0 then .panic .divideByZero else .ok (a.tmod b)

/-- The slice `b[i:j]`.  The bound of `j` is the capacity of `b`, so that `b` stands here for its
contents with the bytes behind them up to the capacity. -/
def slice (b : Bytes) (i j : ℤ) : Result Bytes :=
  if 0 ≤ i ∧ i ≤ j ∧ j ≤ b.length then .ok ((b.drop i.toNat).take (j - i).toNat)
  else .panic .outOfRange

/-! ## Bytes -/

/-- A byte slice that may be nil. -/
abbrev Slice := Option Bytes

/-- The contents of a slice. -/
def Slice.bytes (s : Slice) : Bytes := s.getD []

/-- `bytes.HasPrefix`. -/
def hasPrefix (s prefix_ : Bytes) : Bool := prefix_.isPrefixOf s

/-- `bytes.Compare`. -/
def compareBytes (a b : Bytes) : Ordering := compareOfLessAndEq a b

/-- The verb `%v` on a slice of numbers. -/
def formatSlice (xs : List String) : String := "[" ++ " ".intercalate xs ++ "]"

/-- The verb `%X` on bytes. -/
def formatHex (b : Bytes) : String :=
  String.join (b.map fun x => String.ofList
    [(Nat.digitChar (x.toNat / 16)).toUpper, (Nat.digitChar (x.toNat % 16)).toUpper])

theorem hasPrefix_iff {s prefix_ : Bytes} : hasPrefix s prefix_ ↔ prefix_ <+: s :=
  List.isPrefixOf_iff_prefix

theorem compareBytes_eq_lt {a b : Bytes} : compareBytes a b = .lt ↔ a < b :=
  compareOfLessAndEq_eq_lt

theorem compareBytes_eq_gt {a b : Bytes} : compareBytes a b = .gt ↔ b < a := by
  unfold compareBytes compareOfLessAndEq
  rcases Std.lt_trichotomy a b with h | rfl | h
  · simp [h, Std.le_of_lt h]
  · simp
  · have hne : a ≠ b := by
      rintro rfl
      exact Std.lt_irrefl h
    simp [h, Std.le_of_lt h, hne]

/-! ## Messages -/

structure InnerOp where
  hash : Int32
  prefix_ : Bytes
  suffix : Slice
  deriving DecidableEq, Repr

structure ExistenceProof where
  key : Slice
  value : Bytes
  leaf : Option LeafOp
  path : List InnerOp
  deriving DecidableEq, Repr

structure NonExistenceProof where
  key : Bytes
  left : Option ExistenceProof
  right : Option ExistenceProof
  deriving DecidableEq, Repr

/-- `CommitmentProof`, with the member of its oneof.  Nothing here looks into a batch. -/
inductive CommitmentProof where
  | exist (ex : Option ExistenceProof)
  | nonexist (non : Option NonExistenceProof)
  | batch
  | compressed
  | none
  deriving DecidableEq, Repr

def CommitmentProof.getExist (proof : CommitmentProof) : Option ExistenceProof :=
  match proof with
  | .exist ex => ex
  | _ => Option.none

def CommitmentProof.getNonexist (proof : CommitmentProof) : Option NonExistenceProof :=
  match proof with
  | .nonexist non => non
  | _ => Option.none

end Ics23.Go
