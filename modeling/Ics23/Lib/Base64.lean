import Mathlib

/-!
# Base64

The standard alphabet, with padding.  A group of four characters holds three bytes, the last group
one, two or three.
-/

namespace Ics23.Base64

def alphabet : List Char :=
  "ABCDEFGHIJKLMNOPQRSTUVWXYZabcdefghijklmnopqrstuvwxyz0123456789+/".toList

def char (n : ℕ) : Char := alphabet.getD n '='

def value (c : Char) : Option ℕ := alphabet.findIdx? (· = c)

theorem value_char : ∀ n < 64, value (char n) = some n := by decide +kernel

theorem char_ne_pad : ∀ n < 64, char n ≠ '=' := by decide +kernel

/-- The groups of four characters. -/
def encode : List UInt8 → List Char
  | a :: b :: c :: rest =>
    char (a.toNat / 4) :: char (a.toNat % 4 * 16 + b.toNat / 16) ::
      char (b.toNat % 16 * 4 + c.toNat / 64) :: char (c.toNat % 64) :: encode rest
  | [a, b] =>
    [char (a.toNat / 4), char (a.toNat % 4 * 16 + b.toNat / 16), char (b.toNat % 16 * 4), '=']
  | [a] => [char (a.toNat / 4), char (a.toNat % 4 * 16), '=', '=']
  | [] => []

/-- The bytes of a group, from the numbers of its characters. -/
def group (w x : ℕ) (y z : Option ℕ) : List UInt8 :=
  match y, z with
  | some y, some z =>
    [UInt8.ofNat (w * 4 + x / 16), UInt8.ofNat (x % 16 * 16 + y / 4), UInt8.ofNat (y % 4 * 64 + z)]
  | some y, none => [UInt8.ofNat (w * 4 + x / 16), UInt8.ofNat (x % 16 * 16 + y / 4)]
  | _, _ => [UInt8.ofNat (w * 4 + x / 16)]

/-- The value of a character that may be padding. -/
def padded (c : Char) : Option (Option ℕ) := if c = '=' then some none else (value c).map some

/-- Padding stands at the end only. -/
def decode : List Char → Option (List UInt8)
  | w :: x :: y :: z :: rest => do
    let w ← value w
    let x ← value x
    let y ← padded y
    let z ← padded z
    guard (z.isSome → y.isSome)
    guard (z = none → rest = [])
    return group w x y z ++ (← decode rest)
  | [] => some []
  | _ => none

theorem padded_char {n : ℕ} (h : n < 64) : padded (char n) = some (some n) := by
  rw [padded, if_neg (char_ne_pad n h), value_char n h]
  rfl

theorem padded_pad : padded '=' = some none := if_pos rfl

theorem ofNat_eq {a : UInt8} {n : ℕ} (h : n = a.toNat) : UInt8.ofNat n = a := by
  rw [h, UInt8.ofNat_toNat]

theorem group_three (a b c : UInt8) :
    group (a.toNat / 4) (a.toNat % 4 * 16 + b.toNat / 16)
      (some (b.toNat % 16 * 4 + c.toNat / 64)) (some (c.toNat % 64)) = [a, b, c] := by
  have := b.toNat_lt
  have := c.toNat_lt
  have ha : UInt8.ofNat (a.toNat / 4 * 4 + (a.toNat % 4 * 16 + b.toNat / 16) / 16) = a :=
    ofNat_eq (by omega)
  have hb : UInt8.ofNat ((a.toNat % 4 * 16 + b.toNat / 16) % 16 * 16 +
      (b.toNat % 16 * 4 + c.toNat / 64) / 4) = b := ofNat_eq (by omega)
  have hc : UInt8.ofNat ((b.toNat % 16 * 4 + c.toNat / 64) % 4 * 64 + c.toNat % 64) = c :=
    ofNat_eq (by omega)
  rw [group, ha, hb, hc]

theorem group_two (a b : UInt8) :
    group (a.toNat / 4) (a.toNat % 4 * 16 + b.toNat / 16) (some (b.toNat % 16 * 4)) none =
      [a, b] := by
  have := b.toNat_lt
  have ha : UInt8.ofNat (a.toNat / 4 * 4 + (a.toNat % 4 * 16 + b.toNat / 16) / 16) = a :=
    ofNat_eq (by omega)
  have hb : UInt8.ofNat ((a.toNat % 4 * 16 + b.toNat / 16) % 16 * 16 + b.toNat % 16 * 4 / 4) = b :=
    ofNat_eq (by omega)
  rw [group, ha, hb]

theorem group_one (a : UInt8) : group (a.toNat / 4) (a.toNat % 4 * 16) none none = [a] := by
  have ha : UInt8.ofNat (a.toNat / 4 * 4 + a.toNat % 4 * 16 / 16) = a := ofNat_eq (by omega)
  exact congrArg (fun x => [x]) ha

/-- What was encoded is decoded. -/
theorem decode_encode (b : List UInt8) : decode (encode b) = some b := by
  induction b using encode.induct with
  | case1 a b c rest ih =>
    have := a.toNat_lt
    have := b.toNat_lt
    have := c.toNat_lt
    simp (disch := omega) only [encode, decode, value_char, padded_char, ih]
    simp [group_three, guard]
  | case2 a b =>
    have := a.toNat_lt
    have := b.toNat_lt
    simp (disch := omega) only [encode, decode, value_char, padded_char, padded_pad]
    simp [group_two, guard]
  | case3 a =>
    have := a.toNat_lt
    simp (disch := omega) only [encode, decode, value_char, padded_pad]
    simp [group_one, guard]
  | case4 => rfl

end Ics23.Base64
