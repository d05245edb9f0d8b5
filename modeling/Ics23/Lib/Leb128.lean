import Ics23.Lib.Reader

/-!
# LEB128 and zigzag

The base-128 varint of protobuf wire formats.  `encode n` is the canonical encoding, least
significant group first, every byte but the last carrying the continuation bit.  `decode` reads a
64-bit value: it accepts non-canonical encodings, stops after ten bytes and refuses a tenth byte
above 1.  `zigzag` maps signed integers to naturals so that small absolute values stay short;
`zigzag64` is the same map on machine words.

* `decode_selfDelimiting`: a successful read does not depend on what follows, so that reading a
  string and reading any extension of it agree.
* `decode_encode`: reading back a canonical encoding.
* `encode_append_inj`: canonical encodings are prefix-free.
-/

namespace Ics23

/-- Byte strings. -/
abbrev Bytes := List UInt8

/-- The `k` low bytes of a number, least significant first. -/
def leBytes (k n : ℕ) : Bytes := (List.range k).map fun i => UInt8.ofNat (n / 256 ^ i)

/-- The `k` low bytes of a number, most significant first. -/
def beBytes (k n : ℕ) : Bytes := (leBytes k n).reverse

@[simp] theorem length_leBytes (k n : ℕ) : (leBytes k n).length = k := by
  rw [leBytes, List.length_map, List.length_range]

@[simp] theorem length_beBytes (k n : ℕ) : (beBytes k n).length = k := by
  rw [beBytes, List.length_reverse, length_leBytes]

theorem leBytes_succ (k n : ℕ) : leBytes (k + 1) n = UInt8.ofNat n :: leBytes k (n / 256) := by
  simp only [leBytes, List.range_succ_eq_map, List.map_cons, pow_zero, Nat.div_one, List.map_map]
  congr 1
  apply List.map_congr_left
  intro i _
  rw [Function.comp_apply, Nat.succ_eq_add_one, pow_succ', Nat.div_div_eq_div_mul]

/-- Numbers of `k` bytes are told apart by their bytes. -/
theorem leBytes_inj {k m n : ℕ} (hm : m < 256 ^ k) (hn : n < 256 ^ k)
    (h : leBytes k m = leBytes k n) : m = n := by
  induction k generalizing m n with
  | zero => omega
  | succ k ih =>
    rw [leBytes_succ, leBytes_succ, List.cons.injEq] at h
    have hlow := congrArg UInt8.toNat h.1
    rw [UInt8.toNat_ofNat', UInt8.toNat_ofNat'] at hlow
    have hhigh := ih (by rw [pow_succ] at hm; omega) (by rw [pow_succ] at hn; omega) h.2
    omega

/-- Bytes of a fixed number are prefix-free. -/
theorem leBytes_append_inj {k m n : ℕ} {s t : Bytes} (hm : m < 256 ^ k) (hn : n < 256 ^ k)
    (h : leBytes k m ++ s = leBytes k n ++ t) : m = n ∧ s = t := by
  obtain ⟨hbytes, hst⟩ := List.append_inj h (by rw [length_leBytes, length_leBytes])
  exact ⟨leBytes_inj hm hn hbytes, hst⟩

theorem beBytes_append_inj {k m n : ℕ} {s t : Bytes} (hm : m < 256 ^ k) (hn : n < 256 ^ k)
    (h : beBytes k m ++ s = beBytes k n ++ t) : m = n ∧ s = t := by
  obtain ⟨hbytes, hst⟩ := List.append_inj h (by rw [length_beBytes, length_beBytes])
  exact ⟨leBytes_inj hm hn (List.reverse_injective hbytes), hst⟩

namespace Leb128

/-! ### Bytes as numbers -/

theorem toNat_ofNat_of_lt {n : ℕ} (h : n < 256) : (UInt8.ofNat n).toNat = n := by
  simp only [UInt8.toNat_ofNat']
  exact Nat.mod_eq_of_lt h

/-! ### Encoding -/

/-- The canonical LEB128 encoding. -/
def encode (n : ℕ) : Bytes :=
  if n < 128 then [UInt8.ofNat n] else UInt8.ofNat (n % 128 + 128) :: encode (n / 128)
termination_by n
decreasing_by omega

theorem encode_of_lt {n : ℕ} (h : n < 128) : encode n = [UInt8.ofNat n] := by
  rw [encode, if_pos h]

theorem encode_of_le {n : ℕ} (h : 128 ≤ n) :
    encode n = UInt8.ofNat (n % 128 + 128) :: encode (n / 128) := by
  rw [encode, if_neg (by omega)]

theorem encode_ne_nil (n : ℕ) : encode n ≠ [] := by
  rw [encode]
  split_ifs <;> simp

theorem encode_length_pos (n : ℕ) : 1 ≤ (encode n).length :=
  List.length_pos_iff.2 (encode_ne_nil n)

/-- A number of `7 * k` bits has at most `k` groups. -/
theorem length_encode_le (k : ℕ) {n : ℕ} (h : n < 2 ^ (7 * (k + 1))) :
    (encode n).length ≤ k + 1 := by
  induction k generalizing n with
  | zero => rw [encode_of_lt (by omega), List.length_singleton]
  | succ k ih =>
    rcases Nat.lt_or_ge n 128 with hn | hn
    · rw [encode_of_lt hn, List.length_singleton]
      omega
    · rw [encode_of_le hn, List.length_cons]
      refine Nat.succ_le_succ (ih ?_)
      rw [Nat.div_lt_iff_lt_mul (by omega)]
      calc n < 2 ^ (7 * (k + 1 + 1)) := h
        _ = 2 ^ (7 * (k + 1)) * 128 := by rw [Nat.mul_succ, pow_add]; norm_num

/-- Only the encoding of zero begins with a zero byte. -/
theorem encode_eq_zero_cons {n : ℕ} {s t : Bytes} (h : encode n ++ s = 0 :: t) : n = 0 := by
  rcases Nat.lt_or_ge n 128 with hn | hn
  · rw [encode_of_lt hn, List.singleton_append, List.cons.injEq] at h
    have := congrArg UInt8.toNat h.1
    rwa [toNat_ofNat_of_lt (by omega)] at this
  · rw [encode_of_le hn, List.cons_append, List.cons.injEq] at h
    have := congrArg UInt8.toNat h.1
    rw [toNat_ofNat_of_lt (by omega)] at this
    simp at this

/-- Canonical encodings are prefix-free. -/
theorem encode_append_inj {m n : ℕ} {s t : Bytes} (h : encode m ++ s = encode n ++ t) :
    m = n ∧ s = t := by
  induction m using Nat.strong_induction_on generalizing n with
  | _ m ih =>
    rcases Nat.lt_or_ge m 128 with hm | hm <;> rcases Nat.lt_or_ge n 128 with hn | hn
    · rw [encode_of_lt hm, encode_of_lt hn, List.singleton_append, List.singleton_append,
        List.cons.injEq] at h
      have := congrArg UInt8.toNat h.1
      rw [toNat_ofNat_of_lt (by omega), toNat_ofNat_of_lt (by omega)] at this
      exact ⟨this, h.2⟩
    · rw [encode_of_lt hm, encode_of_le hn, List.singleton_append, List.cons_append,
        List.cons.injEq] at h
      have := congrArg UInt8.toNat h.1
      rw [toNat_ofNat_of_lt (by omega), toNat_ofNat_of_lt (by omega)] at this
      omega
    · rw [encode_of_le hm, encode_of_lt hn, List.singleton_append, List.cons_append,
        List.cons.injEq] at h
      have := congrArg UInt8.toNat h.1
      rw [toNat_ofNat_of_lt (by omega), toNat_ofNat_of_lt (by omega)] at this
      omega
    · rw [encode_of_le hm, encode_of_le hn, List.cons_append, List.cons_append,
        List.cons.injEq] at h
      have hlow := congrArg UInt8.toNat h.1
      rw [toNat_ofNat_of_lt (by omega), toNat_ofNat_of_lt (by omega)] at hlow
      obtain ⟨hhigh, hst⟩ := ih (m / 128) (by omega) h.2
      exact ⟨by omega, hst⟩

/-! ### Decoding -/

/-- Read at most `k` bytes; the last of them may only hold the bit left over in 64. -/
def decodeFuel : ℕ → Bytes → Option (ℕ × Bytes)
  | 0, _ => none
  | _ + 1, [] => none
  | k + 1, b :: bs =>
      if b.toNat < 128 then
        if k = 0 ∧ 1 < b.toNat then none else some (b.toNat, bs)
      else (decodeFuel k bs).map fun (v, rest) => (b.toNat - 128 + 128 * v, rest)

/-- The LEB128 decoder for 64-bit values: the value, and the bytes after it. -/
def decode (bs : Bytes) : Option (ℕ × Bytes) := decodeFuel 10 bs

theorem decodeFuel_selfDelimiting (k : ℕ) : Reader.SelfDelimiting (decodeFuel k) := by
  induction k with
  | zero =>
    intro bs v rest h
    simp [decodeFuel] at h
  | succ k ih =>
    intro bs v rest h
    cases bs with
    | nil => simp [decodeFuel] at h
    | cons b bs =>
      unfold decodeFuel at h
      split_ifs at h with hb hk
      · simp only [Option.some.injEq, Prod.mk.injEq] at h
        obtain ⟨rfl, rfl⟩ := h
        refine ⟨[b], rfl, fun t => ?_⟩
        rw [List.singleton_append, decodeFuel, if_pos hb, if_neg hk]
      · obtain ⟨⟨w, r⟩, hw, he⟩ := Option.map_eq_some_iff.1 h
        simp only [Prod.mk.injEq] at he
        obtain ⟨rfl, rfl⟩ := he
        obtain ⟨read, rfl, hread⟩ := ih hw
        refine ⟨b :: read, rfl, fun t => ?_⟩
        rw [List.cons_append, decodeFuel, if_neg hb, hread]
        rfl

theorem decodeFuel_encode (k : ℕ) {n : ℕ} (t : Bytes) (h : n < 2 ^ (7 * k + 1)) :
    decodeFuel (k + 1) (encode n ++ t) = some (n, t) := by
  induction k generalizing n with
  | zero =>
    rw [encode_of_lt (by omega), List.singleton_append]
    unfold decodeFuel
    rw [toNat_ofNat_of_lt (by omega), if_pos (by omega), if_neg (by omega)]
  | succ k ih =>
    rcases Nat.lt_or_ge n 128 with hn | hn
    · rw [encode_of_lt hn, List.singleton_append]
      unfold decodeFuel
      rw [toNat_ofNat_of_lt (by omega), if_pos hn, if_neg (by omega)]
    · have hq : n / 128 < 2 ^ (7 * k + 1) := by
        rw [Nat.div_lt_iff_lt_mul (by omega)]
        calc n < 2 ^ (7 * (k + 1) + 1) := h
          _ = 2 ^ (7 * k + 1) * 128 := by
            rw [show 7 * (k + 1) + 1 = 7 * k + 1 + 7 by omega, pow_add]
            norm_num
      rw [encode_of_le hn, List.cons_append]
      unfold decodeFuel
      rw [toNat_ofNat_of_lt (by omega), if_neg (by omega), ih hq, Option.map_some]
      have hn : n % 128 + 128 - 128 + 128 * (n / 128) = n := by omega
      simp only [hn]

theorem decode_selfDelimiting : Reader.SelfDelimiting decode := decodeFuel_selfDelimiting 10

/-- Canonical encodings of 64-bit values are read back. -/
theorem decode_encode {n : ℕ} (t : Bytes) (h : n < 2 ^ 64) :
    decode (encode n ++ t) = some (n, t) := decodeFuel_encode 9 t h

theorem decodeFuel_lt {k v : ℕ} {bs rest : Bytes} (h : decodeFuel (k + 1) bs = some (v, rest)) :
    v < 2 ^ (7 * k + 1) := by
  induction k generalizing bs v rest with
  | zero =>
    cases bs with
    | nil => simp [decodeFuel] at h
    | cons b bs =>
      unfold decodeFuel at h
      split_ifs at h with hb hk
      · simp only [Option.some.injEq, Prod.mk.injEq] at h
        omega
      · simp [decodeFuel] at h
  | succ k ih =>
    cases bs with
    | nil => simp [decodeFuel] at h
    | cons b bs =>
      have hpow : 2 ^ (7 * (k + 1) + 1) = 2 ^ (7 * k + 1) * 128 := by
        rw [show 7 * (k + 1) + 1 = 7 * k + 1 + 7 by omega, pow_add]
        norm_num
      have hpos : 2 ^ 1 ≤ 2 ^ (7 * k + 1) := Nat.pow_le_pow_right (by omega) (by omega)
      unfold decodeFuel at h
      split_ifs at h with hb hk
      · simp only [Option.some.injEq, Prod.mk.injEq] at h
        omega
      · obtain ⟨⟨w, r⟩, hw, he⟩ := Option.map_eq_some_iff.1 h
        simp only [Prod.mk.injEq] at he
        have := ih hw
        have := b.toNat_lt
        omega

/-- Only 64-bit values are read. -/
theorem decode_lt {v : ℕ} {bs rest : Bytes} (h : decode bs = some (v, rest)) : v < 2 ^ 64 :=
  decodeFuel_lt h

/-! ### Zigzag -/

/-- The zigzag image of an integer: `0, -1, 1, -2, …` become `0, 1, 2, 3, …`. -/
def zigzag (x : ℤ) : ℕ := if 0 ≤ x then (2 * x).toNat else (-2 * x - 1).toNat

/-- The integer with a given zigzag image. -/
def unzigzag (u : ℕ) : ℤ := if u % 2 = 0 then (u / 2 : ℕ) else -((u / 2 : ℕ) : ℤ) - 1

theorem unzigzag_zigzag (x : ℤ) : unzigzag (zigzag x) = x := by
  unfold unzigzag zigzag
  split_ifs <;> omega

theorem zigzag_lt {x : ℤ} (h : -2 ^ 63 ≤ x) (h' : x < 2 ^ 63) : zigzag x < 2 ^ 64 := by
  unfold zigzag
  split_ifs <;> omega

theorem zigzag_eq_zero {x : ℤ} (h : zigzag x = 0) : x = 0 := by
  rw [← unzigzag_zigzag x, h]
  rfl

/-! ### Zigzag on machine words -/

/-- The zigzag image of a word: shifted to the left, and complemented for a negative number. -/
def zigzag64 (x : Int64) : UInt64 := if x < 0 then ~~~(x.toUInt64 <<< 1) else x.toUInt64 <<< 1

/-- The word with a given zigzag image: shifted to the right, and complemented for an odd image. -/
def unzigzag64 (u : UInt64) : Int64 :=
  if u &&& 1 = 0 then (u >>> 1).toInt64 else ~~~(u >>> 1).toInt64

theorem toInt_toInt64 (u : UInt64) :
    u.toInt64.toInt = if u.toNat < 2 ^ 63 then (u.toNat : ℤ) else u.toNat - 2 ^ 64 := by
  have h := BitVec.toInt_eq_toNat_cond u.toBitVec
  have e : u.toInt64.toInt = u.toBitVec.toInt := rfl
  have e' : u.toNat = u.toBitVec.toNat := rfl
  rw [e, h, e']
  split_ifs <;> first | rfl | omega

theorem toNat_zigzag64 (x : Int64) : (zigzag64 x).toNat = zigzag x.toInt := by
  have hx := toInt_toInt64 x.toUInt64
  rw [Int64.toInt64_toUInt64] at hx
  have hlt := x.toUInt64.toNat_lt
  have hshift : (x.toUInt64 <<< 1).toNat = x.toUInt64.toNat * 2 % 2 ^ 64 := by
    rw [UInt64.toNat_shiftLeft, UInt64.toNat_one, Nat.shiftLeft_eq]
  have hneg : x < 0 ↔ x.toInt < 0 := by rw [Int64.lt_iff_toInt_lt, Int64.toInt_zero]
  unfold zigzag64 zigzag
  by_cases h : x.toInt < 0
  · rw [if_pos (hneg.2 h), if_neg (by omega), UInt64.toNat_not, hshift, UInt64.size]
    split_ifs at hx <;> omega
  · rw [if_neg (mt hneg.1 h), if_pos (by omega), hshift]
    split_ifs at hx <;> omega

theorem toInt_unzigzag64 (u : UInt64) : (unzigzag64 u).toInt = unzigzag u.toNat := by
  have hlt := u.toNat_lt
  have hshift : (u >>> 1).toNat = u.toNat / 2 := by
    rw [UInt64.toNat_shiftRight, UInt64.toNat_one, Nat.shiftRight_eq_div_pow]
  have hx := toInt_toInt64 (u >>> 1)
  rw [hshift, if_pos (by omega)] at hx
  have hbit : u &&& 1 = 0 ↔ u.toNat % 2 = 0 := by
    rw [← UInt64.toNat_inj, UInt64.toNat_and, UInt64.toNat_one, Nat.and_one_is_mod,
      UInt64.toNat_zero]
  unfold unzigzag64 unzigzag
  by_cases h : u.toNat % 2 = 0
  · rw [if_pos (hbit.2 h), if_pos h, hx]
  · rw [if_neg (mt hbit.1 h), if_neg h, Int64.toInt_not, hx,
      Int.bmod_eq_of_le (by omega) (by omega)]

/-! ### Signed values -/

/-- The encoding of a signed integer. -/
def encodeSigned (x : ℤ) : Bytes := encode (zigzag x)

/-- The decoder for signed 64-bit values. -/
def decodeSigned (bs : Bytes) : Option (ℤ × Bytes) :=
  (decode bs).map fun (v, rest) => (unzigzag v, rest)

theorem decodeSigned_selfDelimiting : Reader.SelfDelimiting decodeSigned :=
  decode_selfDelimiting.map

theorem decodeSigned_append {x : ℤ} {bs rest : Bytes} (t : Bytes)
    (h : decodeSigned bs = some (x, rest)) : decodeSigned (bs ++ t) = some (x, rest ++ t) :=
  decodeSigned_selfDelimiting.append t h

theorem decodeSigned_encodeSigned {x : ℤ} (t : Bytes) (h : -2 ^ 63 ≤ x) (h' : x < 2 ^ 63) :
    decodeSigned (encodeSigned x ++ t) = some (x, t) := by
  simp only [decodeSigned, encodeSigned, decode_encode t (zigzag_lt h h'), Option.map_some,
    unzigzag_zigzag]

theorem encodeSigned_eq_zero_cons {x : ℤ} {s t : Bytes} (h : encodeSigned x ++ s = 0 :: t) :
    x = 0 := zigzag_eq_zero (encode_eq_zero_cons h)

end Leb128

end Ics23
