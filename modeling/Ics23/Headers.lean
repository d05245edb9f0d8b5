import Ics23.Go.BuiltIn
import Ics23.Rust.Headers

/-!
# IAVL headers in both implementations

Both implementations read the header of an IAVL node as three signed varints.

* `readVarint_zigzag`: the Rust crate reads back every 64-bit integer, and reads nothing but what
  the Go module reads.
* `prefixes_agree_iff`: the two accept the same prefixes, except that the Rust crate looks at
  neither the height nor the size of a leaf.
-/

namespace Ics23

open Leb128

/-! ### Varints -/

/-- The Go module reads an unsigned word, and takes it for a zigzag image. -/
theorem Go.readVarint_iff_word {r rest : Bytes} {x : ℤ} :
    readVarint r = .ok (x, rest) ↔
      ∃ ux : UInt64, decode r = some (ux.toNat, rest) ∧ x = (unzigzag64 ux).toInt := by
  simp only [readVarint_eq_ok, decodeSigned, Option.map_eq_some_iff, Prod.exists, Prod.mk.injEq,
    toInt_unzigzag64]
  constructor
  · rintro ⟨u, _, hu, rfl, rfl⟩
    have hword : (UInt64.ofNat u).toNat = u := UInt64.toNat_ofNat_of_lt (decode_lt hu)
    exact ⟨UInt64.ofNat u, by rw [hword, hu], by rw [hword]⟩
  · rintro ⟨ux, hu, rfl⟩
    exact ⟨ux.toNat, rest, hu, rfl, rfl⟩

variable (P : Rust.Prost)

/-- The Rust crate reads back the encoding of every signed word and leaves the rest; and what it
reads is the integer that the Go module reads from the same bytes. -/
theorem readVarint_zigzag :
    (∀ (x : Int64) (rest : Bytes),
      Rust.readVarint P (encode (zigzag64 x).toNat ++ rest) = some (x.toInt, rest)) ∧
    ∀ (b rest : Bytes) (x : ℤ), Rust.readVarint P b = some (x, rest) →
      ∃ (read : Bytes) (ux : UInt64), b = read ++ rest ∧ decode read = some (ux.toNat, []) ∧
        x = (unzigzag64 ux).toInt ∧ Go.readVarint read = .ok (x, []) := by
  constructor
  · intro x rest
    rw [Rust.readVarint_eq, toNat_zigzag64]
    exact decodeSigned_encodeSigned rest x.le_toInt x.toInt_lt
  · intro b rest x h
    rw [Rust.readVarint_eq] at h
    obtain ⟨read, hb, hread⟩ := decodeSigned_selfDelimiting.split h
    have hgo := Go.readVarint_eq_ok.2 hread
    obtain ⟨ux, hux, hx⟩ := Go.readVarint_iff_word.1 hgo
    exact ⟨read, ux, hb, hux, hx, hgo⟩

/-! ### Prefixes -/

/-- The prefix check of the Rust crate in a layer, the leaf being layer 0. -/
def Rust.ensurePrefix (prefix_ : Bytes) (hash : Int32) (layer : ℕ) : Result Unit :=
  if layer = 0 then ensureLeafPrefix P prefix_ iavlSpec
  else ensureInnerPrefix P prefix_ iavlSpec layer hash

/-- The prefix has the form of a leaf prefix, but not the height 0 and the size 1 of a leaf. -/
def NotOfLeaf (p : Bytes) : Prop :=
  ∃ height size version, readHeader p = some (height, size, version, []) ∧
    0 ≤ height ∧ 0 ≤ size ∧ 0 ≤ version ∧ ¬ (height = 0 ∧ size = 1)

/-- What the Rust crate accepts and the Go module does not. -/
theorem Rust.ensurePrefix_iff {p : Bytes} {hash : Int32} {layer : ℕ} :
    ensurePrefix P p hash layer = .ok () ↔
      Go.validateIavlOps p hash layer = .ok () ∨ layer = 0 ∧ NotOfLeaf p := by
  rw [Go.validateIavlOps_eq_ok, ensurePrefix]
  by_cases hlayer : layer = 0
  · simp only [hlayer, if_true, iavl_ensureLeafPrefix_eq_ok, IavlPrefix, NotOfLeaf, Nat.cast_zero,
      List.length_eq_zero_iff, true_and]
    constructor
    · rintro ⟨height, size, version, rest, hread, hheight, hsize, hversion, rfl⟩
      by_cases hleaf : height = 0 ∧ size = 1
      · exact .inl ⟨height, size, version, [], hread, ⟨hheight, hheight, hsize, hversion⟩, rfl,
          hleaf⟩
      · exact .inr ⟨height, size, version, hread, hheight, hsize, hversion, hleaf⟩
    · rintro (⟨height, size, version, rest, hread, ⟨hheight, -, hsize, hversion⟩, rfl, -⟩ |
        ⟨height, size, version, hread, hheight, hsize, hversion, -⟩)
      · exact ⟨height, size, version, [], hread, hheight, hsize, hversion, rfl⟩
      · exact ⟨height, size, version, [], hread, hheight, hsize, hversion, rfl⟩
  · have hcast : (layer : ℤ) ≠ 0 := Nat.cast_ne_zero.2 hlayer
    have hpos : 0 ≤ (layer : ℤ) := Nat.cast_nonneg layer
    simp only [hlayer, hcast, if_false, iavl_ensureInnerPrefix_iff, IavlPrefix, false_and, or_false]
    constructor
    · rintro ⟨⟨height, size, version, rest, hread, hle, hsize, hversion, hlen⟩ |
        ⟨height, size, version, rest, hread, hle, hsize, hversion, hlen⟩, hhash⟩
      · exact ⟨height, size, version, rest, hread, ⟨hpos.trans hle, hle, hsize, hversion⟩,
          .inl hlen, hhash⟩
      · exact ⟨height, size, version, rest, hread, ⟨hpos.trans hle, hle, hsize, hversion⟩,
          .inr hlen, hhash⟩
    · rintro ⟨height, size, version, rest, hread, ⟨-, hle, hsize, hversion⟩, hlen, hhash⟩
      exact ⟨hlen.imp (fun h => ⟨height, size, version, rest, hread, hle, hsize, hversion, h⟩)
        fun h => ⟨height, size, version, rest, hread, hle, hsize, hversion, h⟩, hhash⟩

/-- Both implementations accept a prefix or none does, unless it has the form of a leaf prefix
without the height and the size of a leaf. -/
theorem prefixes_agree_iff (p : Bytes) (hash : Int32) (layer : ℕ) :
    (Rust.ensurePrefix P p hash layer = .ok () ↔ Go.validateIavlOps p hash layer = .ok ()) ↔
      ¬ (layer = 0 ∧ NotOfLeaf p) := by
  have hgo : layer = 0 ∧ NotOfLeaf p → ¬ Go.validateIavlOps p hash layer = .ok () := by
    rintro ⟨rfl, height, size, version, hread, -, -, -, hnot⟩ h
    obtain ⟨height', size', version', rest, hread', -, h⟩ := Go.validateIavlOps_eq_ok.1 h
    obtain ⟨rfl, rfl, -⟩ : height = height' ∧ size = size' ∧ _ := by simpa [hread] using hread'
    rw [if_pos Nat.cast_zero] at h
    exact hnot h.2
  rw [Rust.ensurePrefix_iff]
  tauto

/-- A header of three zeros, of height 0 and size 0, passes for the prefix of a leaf. -/
theorem prefixes_differ :
    Rust.ensurePrefix .leb128 [0, 0, 0] 1 0 = .ok () ∧
      Go.validateIavlOps [0, 0, 0] 1 0 ≠ .ok () := by
  constructor <;> decide

end Ics23
