import Ics23.Go.Unmarshal

/-!
# Unmarshalling as reading

What the loops over an index do is what a reader of the wire format does on the rest of the slice
(`Reads`).  So `Unmarshal` never panics, and it returns the message that `Fields.message` returns
(`unmarshal_eq_ok_iff`).
-/

namespace Ics23.Go

open Outcome Reader

/-! ## Readers of fields -/

/-- The low 32 bits of a number. -/
def int32Of (n : ℕ) : Int32 := .ofBitVec (BitVec.ofNat 32 n)

variable {M : Type}

/-- A case of the switch as a reader. -/
def Field.read (field : Field M) (wireType : ℕ) (m : M) : Reader UInt8 M :=
  match field with
  | .int32 _ set =>
    if wireType = 0 then Wire.varint.map fun n => set (int32Of n) m else refuse
  | .bool _ set =>
    if wireType = 0 then Wire.varint.map fun n => set (BitVec.ofNat 64 n ≠ 0) m else refuse
  | .bytes _ set => if wireType = 2 then Wire.delimited.map fun b => set b m else refuse
  | .message _ merge =>
    if wireType = 2 then
      Wire.delimited.bind fun b =>
        match merge b m with
        | .ok m' => done m'
        | _ => refuse
    else refuse
  | .packed _ append =>
    if wireType = 0 then Wire.varint.map fun n => append (int32Of n) m
    else if wireType = 2 then
      Wire.packed.map fun ns => ns.foldl (fun m n => append (int32Of n) m) m
    else refuse

theorem Field.read_selfDelimiting (field : Field M) (wireType : ℕ) (m : M) :
    (field.read wireType m).SelfDelimiting := by
  cases field with
  | int32 name set => exact .ite Wire.varint_selfDelimiting.map refuse_selfDelimiting
  | bool name set => exact .ite Wire.varint_selfDelimiting.map refuse_selfDelimiting
  | bytes name set => exact .ite Wire.delimited_selfDelimiting.map refuse_selfDelimiting
  | message name merge =>
    refine .ite (Wire.delimited_selfDelimiting.bind fun b => ?_) refuse_selfDelimiting
    cases merge b m with
    | ok m' => exact done_selfDelimiting m'
    | err e => exact refuse_selfDelimiting
    | panic p => exact refuse_selfDelimiting
  | packed name append =>
    exact .ite Wire.varint_selfDelimiting.map
      (.ite Wire.packed_selfDelimiting.map refuse_selfDelimiting)

/-- The fields of a message. -/
def knownFields (fields : List (Int32 × Field M)) : Wire.Fields M where
  read num := (fields.lookup (int32Of num)).map Field.read
  selfDelimiting h wireType m := by
    obtain ⟨field, _, rfl⟩ := Option.map_eq_some_iff.1 h
    exact field.read_selfDelimiting wireType m

/-! ## Indexes and rests -/

theorem ensure_of {c : Prop} [Decidable c] {msg : String} (h : c) : ensure c msg = .ok () :=
  if_pos h

theorem ensure_of_not {c : Prop} [Decidable c] {msg : String} (h : ¬ c) :
    ensure c msg = .err msg :=
  if_neg h

/-- A read from index `i` on ends as a reader does that is given the rest of the slice. -/
inductive Reads {α : Type} (d : Bytes) (i : ℕ) : Result (α × ℕ) → Option (α × Bytes) → Prop
  | ok {a : α} {j : ℕ} (le : i ≤ j) (le_length : j ≤ d.length) :
    Reads d i (.ok (a, j)) (some (a, d.drop j))
  | err {e : String} : Reads d i (.err e) none

variable {α β : Type} {d : Bytes} {i : ℕ}

theorem Reads.of_some {x : Result (α × ℕ)} {a : α} {r : Bytes} (h : Reads d i x (some (a, r))) :
    ∃ j, i ≤ j ∧ j ≤ d.length ∧ r = d.drop j ∧ x = .ok (a, j) := by
  cases h with
  | ok hle hlen => exact ⟨_, hle, hlen, rfl, rfl⟩

theorem Reads.of_none {x : Result (α × ℕ)} (h : Reads d i x none) : ∃ e, x = .err e := by
  cases h with
  | err => exact ⟨_, rfl⟩

theorem Reads.mono {x : Result (α × ℕ)} {o : Option (α × Bytes)} {j : ℕ} (h : Reads d j x o)
    (hij : i ≤ j) : Reads d i x o := by
  cases h with
  | ok hle hlen => exact .ok (hij.trans hle) hlen
  | err => exact .err

theorem Reads.map {x : Result (α × ℕ)} {o : Option (α × Bytes)} (h : Reads d i x o) (f : α → β) :
    Reads d i (x >>= fun y => pure (f y.1, y.2)) (o.map fun y => (f y.1, y.2)) := by
  cases h with
  | ok hle hlen =>
    rw [ok_bind, Option.map_some]
    exact .ok hle hlen
  | err =>
    rw [err_bind, Option.map_none]
    exact .err

/-! ## Varints -/

/-- The groups of a varint do not overlap. -/
theorem ofNat_group (w : ℕ) {c : ℕ} (n shift : ℕ) (h : c < 128) :
    BitVec.ofNat w (c + 128 * n) <<< shift =
      BitVec.ofNat w c <<< shift ||| BitVec.ofNat w n <<< (shift + 7) := by
  have hor : c + 128 * n = c ||| n <<< 7 := by
    rw [Nat.or_comm, Nat.shiftLeft_eq, Nat.mul_comm n, ← Nat.two_pow_add_eq_or_of_lt h n]
    ring
  have hshift : BitVec.ofNat w (n <<< 7) = BitVec.ofNat w n <<< 7 := by
    apply BitVec.eq_of_toNat_eq
    simp [Nat.shiftLeft_eq, Nat.mod_mul_mod]
  rw [hor, BitVec.ofNat_or, BitVec.shiftLeft_or_distrib, hshift, Nat.add_comm shift,
    BitVec.shiftLeft_add]

theorem varintLoop_reads {w : ℕ} (d : Bytes) (rounds shift : ℕ) (v : BitVec w) {i : ℕ}
    (hi : i ≤ d.length) :
    Reads d i (varintLoop d rounds shift v i)
      ((Wire.varintFuel rounds (d.drop i)).map fun y =>
        (v ||| BitVec.ofNat w y.1 <<< shift, y.2)) := by
  induction rounds generalizing shift v i with
  | zero => exact .err
  | succ rounds ih =>
    rw [varintLoop]
    rcases hi.lt_or_eq with hlt | rfl
    · rw [List.getElem?_eq_getElem hlt, List.drop_eq_getElem_cons hlt, Wire.varintFuel]
      have hb := (d[i]).toNat_lt
      have hlow : (d[i] &&& 0x7F).toNat = d[i].toNat % 128 := by
        rw [UInt8.toNat_and]
        exact Nat.and_two_pow_sub_one_eq_mod _ 7
      simp only [hlow]
      by_cases hsmall : d[i].toNat < 128
      · rw [if_pos (UInt8.lt_iff_toNat_lt.2 hsmall), if_pos hsmall, Nat.mod_eq_of_lt hsmall]
        exact .ok (Nat.le_succ i) hlt
      · rw [if_neg (mt UInt8.lt_iff_toNat_lt.1 hsmall), if_neg hsmall]
        have hrest := (ih (shift + 7) (v ||| BitVec.ofNat w (d[i].toNat % 128) <<< shift) hlt).mono
          (Nat.le_succ i)
        have hgroup : d[i].toNat - 128 = d[i].toNat % 128 := by omega
        rw [hgroup, Option.map_map]
        convert hrest using 3 with y
        rw [Function.comp_apply, ofNat_group w y.1 shift (by omega), BitVec.or_assoc]
    · rw [List.getElem?_eq_none le_rfl, List.drop_length, Wire.varintFuel]
      exact .err

theorem varint_reads (w : ℕ) (d : Bytes) {i : ℕ} (hi : i ≤ d.length) :
    Reads d i (varint w d i) (Wire.varint.map (BitVec.ofNat w) (d.drop i)) := by
  have h := varintLoop_reads d 10 0 (0 : BitVec w) hi
  simp only [BitVec.shiftLeft_zero, show (0 : BitVec w) = 0#w from rfl, BitVec.zero_or] at h
  exact h

/-- A varint is read, or both reads fail. -/
theorem varint_cases (w : ℕ) (hi : i ≤ d.length) :
    (∃ n j, i < j ∧ j ≤ d.length ∧ Wire.varint (d.drop i) = some (n, d.drop j) ∧
      varint w d i = .ok (BitVec.ofNat w n, j)) ∨
    (∃ e, varint w d i = .err e) ∧ Wire.varint (d.drop i) = none := by
  have hread := varint_reads w d hi
  rw [Reader.map] at hread
  cases hvarint : Wire.varint (d.drop i) with
  | none =>
    rw [hvarint, Option.map_none] at hread
    exact .inr ⟨hread.of_none, rfl⟩
  | some y =>
    obtain ⟨n, r⟩ := y
    rw [hvarint, Option.map_some] at hread
    obtain ⟨j, hij, hj, rfl, hx⟩ := hread.of_some
    have hlt := Wire.varint_progress hvarint
    rw [List.length_drop, List.length_drop] at hlt
    exact .inl ⟨n, j, by omega, hj, rfl, hx⟩

/-! ## Payloads -/

theorem toInt_ofNat (n : ℕ) :
    (BitVec.ofNat 64 n).toInt = if n % 2 ^ 64 < 2 ^ 63 then ((n % 2 ^ 64 : ℕ) : ℤ)
      else (n % 2 ^ 64 : ℕ) - 2 ^ 64 := by
  rw [BitVec.toInt_eq_toNat_cond, BitVec.toNat_ofNat]
  split_ifs <;> first | rfl | omega

theorem int_of_le {x : ℤ} (h : 2 ^ 63 ≤ x) (h' : x < 2 ^ 64) : int x = x - 2 ^ 64 := by
  rw [int, Int.bmod_def]
  split_ifs <;> omega

/-- Going on by a length: it is negative, the sum overflows, or it is the new index. -/
theorem int_add_cases {j n : ℕ} (hj : j < 2 ^ 63) :
    (BitVec.ofNat 64 n).toInt < 0 ∧ 2 ^ 63 ≤ j + n % 2 ^ 64 ∨
    0 ≤ (BitVec.ofNat 64 n).toInt ∧ 2 ^ 63 ≤ j + n % 2 ^ 64 ∧
      int (j + (BitVec.ofNat 64 n).toInt) < 0 ∨
    0 ≤ (BitVec.ofNat 64 n).toInt ∧
      int (j + (BitVec.ofNat 64 n).toInt) = (j + n % 2 ^ 64 : ℕ) := by
  have hn := toInt_ofNat n
  split_ifs at hn with hsmall
  · rcases Nat.lt_or_ge (j + n % 2 ^ 64) (2 ^ 63) with hsum | hsum
    · refine .inr (.inr ⟨by omega, ?_⟩)
      rw [hn, int_eq (by omega)]
      omega
    · refine .inr (.inl ⟨by omega, hsum, ?_⟩)
      rw [hn, int_of_le (by omega) (by omega)]
      omega
  · exact .inl (by omega)

theorem toNat_and_seven (n : ℕ) : (BitVec.ofNat 64 n &&& 0x7).toNat = n % 8 := by
  rw [BitVec.toNat_and, BitVec.toNat_ofNat]
  exact (Nat.and_two_pow_sub_one_eq_mod _ 3).trans (Nat.mod_mod_of_dvd n (by norm_num))

section Payloads

variable (small : d.length < 2 ^ 63)

include small

/-- The bounds of a payload are those that its length gives. -/
theorem payloadBounds_cases (hi : i ≤ d.length) :
    (∃ n j k, i ≤ j ∧ j ≤ k ∧ k ≤ d.length ∧ Wire.varint (d.drop i) = some (n, d.drop j) ∧
      n % 2 ^ 64 = k - j ∧ payloadBounds d i = .ok (j, (k : ℤ))) ∨
    (∃ e, payloadBounds d i = .err e) ∧
      ∀ n r, Wire.varint (d.drop i) = some (n, r) → r.length < n % 2 ^ 64 := by
  rcases varint_cases 64 hi with ⟨n, j, hij, hj, hvarint, hx⟩ | ⟨⟨e, hx⟩, hvarint⟩
  · rw [hvarint]
    have hlen : (d.drop j).length = d.length - j := List.length_drop
    have hbounds : payloadBounds d i = (do
        ensure (¬ (BitVec.ofNat 64 n).toInt < 0) errInvalidLengthProofs
        ensure (¬ int (j + (BitVec.ofNat 64 n).toInt) < 0) errInvalidLengthProofs
        ensure (¬ int (j + (BitVec.ofNat 64 n).toInt) > d.length) errUnexpectedEOF
        return (j, int (j + (BitVec.ofNat 64 n).toInt))) := by
      rw [payloadBounds, hx, ok_bind]
    rw [hbounds]
    rcases int_add_cases (n := n) (hj.trans_lt small) with
      ⟨hneg, hbig⟩ | ⟨hpos, hbig, hneg⟩ | ⟨hpos, heq⟩
    · refine .inr ⟨⟨errInvalidLengthProofs, by rw [ensure_of_not (not_not.2 hneg), err_bind]⟩, ?_⟩
      rintro n' r' h
      cases h
      omega
    · refine .inr ⟨⟨errInvalidLengthProofs, ?_⟩, ?_⟩
      · rw [ensure_of (not_lt.2 hpos), ok_bind, ensure_of_not (not_not.2 hneg), err_bind]
      · rintro n' r' h
        cases h
        omega
    · rw [ensure_of (not_lt.2 hpos), ok_bind, heq, ensure_of (by omega), ok_bind]
      rcases Nat.lt_or_ge d.length (j + n % 2 ^ 64) with hout | hin
      · refine .inr ⟨⟨errUnexpectedEOF, by rw [ensure_of_not (by omega), err_bind]⟩, ?_⟩
        rintro n' r' h
        cases h
        omega
      · refine .inl ⟨n, j, j + n % 2 ^ 64, hij.le, Nat.le_add_right _ _, hin, rfl, by omega, ?_⟩
        rw [ensure_of (by omega), ok_bind]
        rfl
  · exact .inr ⟨⟨e, by rw [payloadBounds, hx, err_bind]⟩, by simp [hvarint]⟩

/-- A payload that is cut out of the slice. -/
theorem payload_reads {f : Bytes → Result β} {q : Bytes → Reader UInt8 β} (hi : i ≤ d.length)
    (hf : ∀ b, b.length < 2 ^ 63 → ∀ s, (∃ a, f b = .ok a ∧ q b s = some (a, s)) ∨
      (∃ e, f b = .err e) ∧ q b s = none) :
    Reads d i (payloadBounds d i >>= fun y => slice d y.1 y.2 >>= fun b => f b >>= fun a =>
      pure (a, y.2.toNat)) (Wire.delimited.bind q (d.drop i)) := by
  rcases payloadBounds_cases small hi with ⟨n, j, k, hij, hjk, hk, hvarint, hn, hbounds⟩ |
    ⟨⟨e, hbounds⟩, hlong⟩
  · have hslice : slice d j k = .ok ((d.drop j).take (k - j)) := by
      rw [slice, if_pos (by omega), Int.toNat_natCast, show ((k : ℤ) - j).toNat = k - j by omega]
    have hdelimited : Wire.delimited (d.drop i) = some ((d.drop j).take (k - j), d.drop k) := by
      refine bind_eq_some.2 ⟨n, d.drop j, hvarint, ?_⟩
      rw [hn, Wire.take, if_pos (by rw [List.length_drop]; omega), List.drop_drop,
        Nat.add_sub_cancel' hjk]
    have hshort : ((d.drop j).take (k - j)).length < 2 ^ 63 := by
      rw [List.length_take, List.length_drop]
      omega
    rw [Reader.bind, hdelimited, Option.bind_some, hbounds, ok_bind]
    simp only [hslice, ok_bind, Int.toNat_natCast]
    rcases hf _ hshort (d.drop k) with ⟨a, hfa, hqa⟩ | ⟨⟨e, hfe⟩, hqn⟩
    · rw [hfa, hqa, ok_bind]
      exact .ok (hij.trans hjk) hk
    · rw [hfe, hqn, err_bind]
      exact .err
  · have hnone : Wire.delimited.bind q (d.drop i) = none := by
      cases hvarint : Wire.varint (d.drop i) with
      | none => simp [Wire.delimited, Reader.bind, hvarint]
      | some y =>
        have := hlong y.1 y.2 hvarint
        simp only [Wire.delimited, Reader.bind, hvarint, Option.bind_some, Wire.take,
          if_neg (not_le.2 this), Option.bind_none]
    rw [hbounds, err_bind, hnone]
    exact .err

end Payloads

/-! ## Packed integers -/

theorem packedLoop_reads {append : Int32 → M → M} {post rounds : ℕ} (m : M) (ns : List ℕ)
    (hi : i < post) (hpost : post ≤ d.length) (hrounds : d.length - i < rounds) :
    Reads d i
      (packedLoop append d post rounds (ns.foldl (fun m n => append (int32Of n) m) m) i)
      ((loop Wire.packedStep (post - i, ns) (d.drop i)).map fun y =>
        (y.1.foldl (fun m n => append (int32Of n) m) m, y.2)) := by
  induction rounds generalizing i ns with
  | zero => omega
  | succ rounds ih =>
    rw [packedLoop, if_pos (by omega), loop_eq Wire.packedStep_progress, Wire.packedStep]
    rcases varint_cases 32 (hi.le.trans hpost) with
      ⟨n, j, hij, hj, hvarint, hx⟩ | ⟨⟨e, hx⟩, hvarint⟩
    · have hused : (d.drop i).length - (d.drop j).length = j - i := by
        rw [List.length_drop, List.length_drop]
        omega
      have hfold : append (int32Of n) (ns.foldl (fun m n => append (int32Of n) m) m) =
          (ns ++ [n]).foldl (fun m n => append (int32Of n) m) m := by
        rw [List.foldl_append, List.foldl_cons, List.foldl_nil]
      simp only [hvarint, hx, ok_bind, Option.map_some, hused]
      rw [← int32Of, hfold]
      rcases Nat.lt_or_ge j post with hlt | hge
      · rw [if_pos (by omega)]
        have hrest := (ih (ns ++ [n]) hlt (by omega)).mono hij.le
        rwa [show post - j = post - i - (j - i) by omega] at hrest
      · rw [if_neg (by omega)]
        obtain ⟨rounds, rfl⟩ := Nat.exists_eq_succ_of_ne_zero (n := rounds) (by omega)
        rw [packedLoop, if_neg (by omega)]
        exact .ok hij.le hj
    · rw [hx, hvarint, err_bind]
      exact .err

theorem packed_reads (small : d.length < 2 ^ 63) {append : Int32 → M → M} (m : M)
    (hi : i ≤ d.length) :
    Reads d i
      (payloadBounds d i >>= fun y => packedLoop append d y.2 (d.length + 1) m y.1)
      ((Wire.packed.map fun ns => ns.foldl (fun m n => append (int32Of n) m) m) (d.drop i)) := by
  rcases payloadBounds_cases small hi with ⟨n, j, k, hij, hjk, hk, hvarint, hn, hbounds⟩ |
    ⟨⟨e, hbounds⟩, hlong⟩
  · rw [hbounds, ok_bind, Reader.map, Wire.packed, Reader.bind, hvarint, Option.bind_some, hn,
      Wire.packedWithin, if_neg (by rw [List.length_drop]; omega)]
    rcases hjk.lt_or_eq with hlt | rfl
    · rw [if_neg (by omega)]
      exact (packedLoop_reads m [] hlt hk (by omega)).mono hij
    · rw [if_pos (by omega), packedLoop, if_neg (by omega)]
      exact .ok hij hk
  · have hnone : Wire.packed (d.drop i) = none := by
      cases hvarint : Wire.varint (d.drop i) with
      | none => simp only [Wire.packed, Reader.bind, hvarint, Option.bind_none]
      | some y =>
        have := hlong y.1 y.2 hvarint
        simp only [Wire.packed, Reader.bind, hvarint, Option.bind_some, Wire.packedWithin,
          if_pos this]
    rw [hbounds, err_bind, Reader.map, hnone]
    exact .err

/-! ## Skipping -/

/-- An index after a payload: the one a reader comes to, or one that is checked later. -/
inductive Skips (d : Bytes) (i : ℕ) : Result (ℕ × ℤ) → Option (ℕ × Bytes) → Prop
  | ok {depth j : ℕ} (le : i ≤ j) (le_length : j ≤ d.length) :
    Skips d i (.ok (depth, j)) (some (depth, d.drop j))
  | beyond {depth : ℕ} {j : ℤ} (out : j < 0 ∨ d.length < j) (lt : j < 2 ^ 63) :
    Skips d i (.ok (depth, j)) none
  | err {e : String} : Skips d i (.err e) none

section Skipping

variable (small : d.length < 2 ^ 63)

include small

/-- A payload of `n` bytes. -/
theorem skips_take {depth n : ℕ} (hi : i ≤ d.length) (hn : n < 2 ^ 63) :
    Skips d i (.ok (depth, int (i + n))) (((Wire.take n).map fun _ => depth) (d.drop i)) := by
  rw [Reader.map, Wire.take, List.length_drop]
  rcases Nat.lt_or_ge d.length (i + n) with hout | hin
  · rw [if_neg (by omega)]
    refine .beyond ?_ (int_lt _)
    rcases Nat.lt_or_ge (i + n) (2 ^ 63) with hsum | hsum
    · rw [int_eq (by omega)]
      omega
    · rw [int_of_le (by omega) (by omega)]
      omega
  · rw [if_pos (by omega), int_eq (by omega), List.drop_drop]
    exact .ok (Nat.le_add_right i n) hin

theorem skipRound_skips (wireType depth : ℕ) (hi : i ≤ d.length) :
    Skips d i (skipRound d wireType depth i) (Wire.skipPayload wireType depth (d.drop i)) := by
  match wireType with
  | 0 =>
    simp only [skipRound, Wire.skipPayload, Reader.map]
    rcases varint_cases 64 hi with ⟨n, j, hij, hj, hvarint, hx⟩ | ⟨⟨e, hx⟩, hvarint⟩
    · rw [hx, hvarint]
      exact .ok hij.le hj
    · rw [hx, hvarint]
      exact .err
  | 1 => exact skips_take small (n := 8) hi (by norm_num)
  | 2 =>
    simp only [skipRound, Wire.skipPayload, Reader.map, Wire.delimited, Reader.bind]
    rcases varint_cases 64 hi with ⟨n, j, hij, hj, hvarint, hx⟩ | ⟨⟨e, hx⟩, hvarint⟩
    · simp only [hx, ok_bind, hvarint, Option.bind_some]
      rcases int_add_cases (n := n) (hj.trans_lt small) with
        ⟨hneg, hbig⟩ | ⟨hpos, hbig, hneg⟩ | ⟨hpos, heq⟩
      · rw [ensure_of_not (not_not.2 hneg), err_bind, Wire.take, List.length_drop,
          if_neg (by omega)]
        exact .err
      · rw [ensure_of (not_lt.2 hpos), ok_bind, Wire.take, List.length_drop, if_neg (by omega)]
        exact .beyond (.inl hneg) (int_lt _)
      · have hlt := heq ▸ int_lt (j + (BitVec.ofNat 64 n).toInt)
        rw [ensure_of (not_lt.2 hpos), ok_bind, heq, Wire.take, List.length_drop]
        split_ifs with hin
        · rw [Option.map_some, List.drop_drop]
          exact .ok (by omega) (by omega)
        · exact .beyond (.inr (by omega)) hlt
    · rw [hx, hvarint]
      exact .err
  | 3 => exact .ok le_rfl hi
  | 4 =>
    simp only [skipRound, Wire.skipPayload]
    by_cases hdepth : depth = 0
    · rw [ensure_of_not (not_not.2 hdepth), err_bind, if_pos hdepth]
      exact .err
    · rw [ensure_of hdepth, ok_bind, if_neg hdepth]
      exact .ok le_rfl hi
  | 5 => exact skips_take small (n := 4) hi (by norm_num)
  | _ + 6 => exact .err

/-- The loop of `skipProofs` comes to the index after the field, or its result is refused later. -/
theorem skipLoop_cases (rounds depth : ℕ) (hrounds : d.length - i < rounds) :
    (∃ j : ℕ, i < j ∧ j ≤ d.length ∧ skipLoop d rounds depth i = .ok j ∧
      loop Wire.skipStep depth (d.drop i) = some ((), d.drop j)) ∨
    loop Wire.skipStep depth (d.drop i) = none ∧ ((∃ e, skipLoop d rounds depth i = .err e) ∨
      ∃ j : ℤ, d.length < j ∧ j < 2 ^ 63 ∧ skipLoop d rounds depth i = .ok j) := by
  induction rounds generalizing depth i with
  | zero => omega
  | succ rounds ih =>
    rw [skipLoop, loop_eq Wire.skipStep_progress, Wire.skipStep]
    rcases Nat.lt_or_ge i d.length with hi | hi
    · rw [if_pos hi, Reader.bind]
      rcases varint_cases 64 hi.le with ⟨n, j, hij, hj, hvarint, hx⟩ | ⟨⟨e, hx⟩, hvarint⟩
      · have htype := toNat_and_seven n
        have hround := skipRound_skips small (n % 8) depth hj
        simp only [hx, ok_bind, hvarint, Option.bind_some, htype, Reader.map]
        generalize skipRound d (n % 8) depth j = x at hround ⊢
        generalize Wire.skipPayload (n % 8) depth (d.drop j) = o at hround ⊢
        cases hround with
        | @ok depth' j' hle hlen =>
          simp only [ok_bind, Option.map_some]
          rw [ensure_of (by omega), ok_bind]
          by_cases hdepth : depth' = 0
          · simp only [if_pos hdepth]
            exact .inl ⟨j', by omega, hlen, rfl, rfl⟩
          · simp only [if_neg hdepth, Int.toNat_natCast]
            rcases ih (i := j') depth' (by omega) with ⟨k, hk⟩ | hfail
            · exact .inl ⟨k, by omega, hk.2⟩
            · exact .inr hfail
        | @beyond depth' j' hout hlt =>
          refine .inr ⟨rfl, ?_⟩
          simp only [ok_bind]
          rcases hout with hneg | hout
          · rw [ensure_of_not (not_not.2 hneg), err_bind]
            exact .inl ⟨_, rfl⟩
          · rw [ensure_of (by omega), ok_bind]
            by_cases hdepth : depth' = 0
            · rw [if_pos hdepth]
              exact .inr ⟨j', hout, hlt, rfl⟩
            · rw [if_neg hdepth]
              obtain ⟨rounds, rfl⟩ := Nat.exists_eq_succ_of_ne_zero (n := rounds) (by omega)
              rw [skipLoop, if_neg (by omega)]
              exact .inl ⟨_, rfl⟩
        | err => exact .inr ⟨rfl, .inl ⟨_, rfl⟩⟩
      · rw [hx, hvarint]
        exact .inr ⟨rfl, .inl ⟨e, rfl⟩⟩
    · rw [if_neg (by omega), List.drop_of_length_le hi]
      exact .inr ⟨rfl, .inl ⟨_, rfl⟩⟩

theorem skipUnknown_reads (hi : i ≤ d.length) :
    (∃ j, i < j ∧ j ≤ d.length ∧ skipUnknown d i = .ok j ∧
      Wire.skip (d.drop i) = some ((), d.drop j)) ∨
    (∃ e, skipUnknown d i = .err e) ∧ Wire.skip (d.drop i) = none := by
  have hslice : slice d i d.length = .ok (d.drop i) := by
    rw [slice, if_pos (by omega), Int.toNat_natCast, List.take_of_length_le]
    rw [List.length_drop]
    omega
  have hlen : (d.drop i).length = d.length - i := List.length_drop
  rw [skipUnknown, hslice, ok_bind, skipProofs, Wire.skip]
  rcases skipLoop_cases (i := 0) (d := d.drop i) (by omega) ((d.drop i).length + 1) 0 (by omega)
    with ⟨j, hpos, hj, hx, hloop⟩ | ⟨hloop, ⟨e, hx⟩ | ⟨j, hout, hlt, hx⟩⟩
  · rw [List.drop_zero] at hloop
    rw [List.drop_drop] at hloop
    refine .inl ⟨i + j, by omega, by omega, ?_, hloop⟩
    rw [hx, ok_bind, int_eq (by omega), ensure_of (by omega), ok_bind, ensure_of (by omega),
      ok_bind]
    rfl
  · rw [List.drop_zero] at hloop
    exact .inr ⟨⟨e, by rw [hx, err_bind]⟩, hloop⟩
  · rw [List.drop_zero] at hloop
    refine .inr ⟨?_, hloop⟩
    rw [hx, ok_bind]
    rcases lt_or_ge ((i : ℤ) + j) (2 ^ 63) with hsum | hsum
    · rw [int_eq (by omega), ensure_of (by omega), ok_bind, ensure_of_not (by omega), err_bind]
      exact ⟨_, rfl⟩
    · rw [int_of_le hsum (by omega), ensure_of_not (by omega), err_bind]
      exact ⟨_, rfl⟩

end Skipping

/-! ## Fields and messages -/

/-- A field does not panic on any slice that it is given. -/
def Field.Safe (field : Field M) : Prop :=
  match field with
  | .message _ merge => ∀ b m, b.length < 2 ^ 63 → (merge b m).NoPanic
  | _ => True

/-- A number that is stored in a field. -/
theorem varint_store_reads {w : ℕ} (g : BitVec w → M) (hi : i ≤ d.length) :
    Reads d i (varint w d i >>= fun y => pure (g y.1, y.2))
      ((Wire.varint.map fun n => g (BitVec.ofNat w n)) (d.drop i)) := by
  have h := (varint_reads w d hi).map g
  rwa [Reader.map, Option.map_map] at h

theorem Field.unmarshal_reads (small : d.length < 2 ^ 63) {field : Field M} (safe : field.Safe)
    (wireType : ℕ) (m : M) (hi : i ≤ d.length) :
    Reads d i (field.unmarshal wireType d m i) (field.read wireType m (d.drop i)) := by
  cases field with
  | int32 name set =>
    simp only [Field.unmarshal, Field.read]
    by_cases htype : wireType = 0
    · rw [ensure_of htype, ok_bind, if_pos htype]
      exact varint_store_reads (fun v : BitVec 32 => set (.ofBitVec v) m) hi
    · rw [ensure_of_not htype, err_bind, if_neg htype]
      exact .err
  | bool name set =>
    simp only [Field.unmarshal, Field.read]
    by_cases htype : wireType = 0
    · rw [ensure_of htype, ok_bind, if_pos htype]
      exact varint_store_reads (fun v : BitVec 64 => set (v ≠ 0) m) hi
    · rw [ensure_of_not htype, err_bind, if_neg htype]
      exact .err
  | bytes name set =>
    simp only [Field.unmarshal, Field.read]
    by_cases htype : wireType = 2
    · rw [ensure_of htype, ok_bind, if_pos htype]
      have h := payload_reads small (f := fun b => .ok (set b m)) (q := fun b => done (set b m)) hi
        fun b _ s => .inl ⟨_, rfl, rfl⟩
      rw [bind_done] at h
      simpa only [ok_bind] using h
    · rw [ensure_of_not htype, err_bind, if_neg htype]
      exact .err
  | message name merge =>
    simp only [Field.unmarshal, Field.read]
    by_cases htype : wireType = 2
    · rw [ensure_of htype, ok_bind, if_pos htype]
      refine payload_reads small hi fun b hb s => ?_
      have hsafe := safe b m hb
      cases hmerge : merge b m with
      | ok m' => exact .inl ⟨m', rfl, rfl⟩
      | err e => exact .inr ⟨⟨e, rfl⟩, rfl⟩
      | panic p => exact absurd hmerge (hsafe p)
    · rw [ensure_of_not htype, err_bind, if_neg htype]
      exact .err
  | packed name append =>
    simp only [Field.unmarshal, Field.read]
    by_cases hzero : wireType = 0
    · rw [if_pos hzero, if_pos hzero]
      exact varint_store_reads (fun v : BitVec 32 => append (.ofBitVec v) m) hi
    · rw [if_neg hzero, if_neg hzero]
      by_cases htype : wireType = 2
      · rw [if_pos htype, if_pos htype]
        exact packed_reads small m hi
      · rw [if_neg htype, if_neg htype]
        exact .err

theorem fieldNumber_eq (n : ℕ) :
    Int32.ofBitVec ((BitVec.ofNat 64 n >>> 3).setWidth 32) = int32Of (Wire.fieldNumber n) := by
  rw [int32Of, Wire.fieldNumber]
  congr 1
  apply BitVec.eq_of_toNat_eq
  simp [BitVec.toNat_setWidth, BitVec.toNat_ushiftRight, Nat.shiftRight_eq_div_pow]

theorem int32Of_le_zero {n : ℕ} (h : n < 2 ^ 32) : int32Of n ≤ 0 ↔ n = 0 ∨ 2 ^ 31 ≤ n := by
  have htoInt : (int32Of n).toInt = if n < 2 ^ 31 then (n : ℤ) else n - 2 ^ 32 := by
    show (BitVec.ofNat 32 n).toInt = _
    rw [BitVec.toInt_eq_toNat_cond, BitVec.toNat_ofNat, Nat.mod_eq_of_lt h]
    split_ifs <;> first | rfl | omega
  rw [Int32.le_iff_toInt_le, htoInt, Int32.toInt_zero]
  split_ifs <;> omega

variable {fields : List (Int32 × Field M)}

theorem unmarshalLoop_reads (small : d.length < 2 ^ 63) (safe : ∀ field ∈ fields, field.2.Safe)
    (name : String) (rounds : ℕ) (m : M) (hi : i ≤ d.length) (hrounds : d.length - i < rounds) :
    (∃ m', unmarshalLoop name fields d rounds m i = .ok m' ∧
      (knownFields fields).message m (d.drop i) = some m') ∨
    (∃ e, unmarshalLoop name fields d rounds m i = .err e) ∧
      (knownFields fields).message m (d.drop i) = none := by
  induction rounds generalizing m i with
  | zero => omega
  | succ rounds ih =>
    rw [unmarshalLoop]
    rcases hi.lt_or_eq with hlt | rfl
    · have hne : d.drop i ≠ [] := by
        rw [ne_eq, List.drop_eq_nil_iff]
        omega
      rw [if_pos hlt, Wire.Fields.message_eq hne, Wire.Fields.field, Reader.bind]
      rcases varint_cases 64 hi with ⟨n, j, hij, hj, hvarint, hx⟩ | ⟨⟨e, hx⟩, hvarint⟩
      · simp only [hx, ok_bind, hvarint, Option.bind_some, toNat_and_seven, fieldNumber_eq,
          Wire.Fields.payload, knownFields]
        have hpow : Wire.fieldNumber n < 2 ^ 32 := Nat.mod_lt _ (by norm_num)
        by_cases htype : n % 8 = 4
        · rw [ensure_of_not (not_not.2 htype), err_bind, if_pos (.inl htype)]
          exact .inr ⟨⟨_, rfl⟩, rfl⟩
        rw [ensure_of htype, ok_bind]
        by_cases hnum : int32Of (Wire.fieldNumber n) ≤ 0
        · rw [ensure_of_not (not_not.2 hnum), err_bind,
            if_pos (.inr ((int32Of_le_zero hpow).1 hnum))]
          exact .inr ⟨⟨_, rfl⟩, rfl⟩
        rw [ensure_of hnum, ok_bind,
          if_neg (not_or.2 ⟨htype, mt (int32Of_le_zero hpow).2 hnum⟩)]
        cases hfield : fields.lookup (int32Of (Wire.fieldNumber n)) with
        | some field =>
          obtain ⟨before, after, hfields, -⟩ := List.lookup_eq_some_iff.1 hfield
          have hsafe : field.Safe := safe (int32Of (Wire.fieldNumber n), field) (by simp [hfields])
          have hread := Field.unmarshal_reads small hsafe (n % 8) m hj
          simp only [Option.map_some]
          cases hfound : field.read (n % 8) m (d.drop j) with
          | none =>
            rw [hfound] at hread
            obtain ⟨e, he⟩ := hread.of_none
            rw [he]
            exact .inr ⟨⟨e, rfl⟩, rfl⟩
          | some y =>
            rw [hfound] at hread
            obtain ⟨k, hjk, hk, hrest, hy⟩ := hread.of_some
            rw [hy, ok_bind, Option.bind_some, hrest]
            exact ih y.1 hk (by omega)
        | none =>
          simp only [Option.map_none]
          have hskip := Wire.skip_eq (d.drop i)
          rw [Reader.bind, hvarint, Option.bind_some] at hskip
          rcases skipUnknown_reads small hi with ⟨k, hik, hk, hy, hs⟩ | ⟨⟨e, he⟩, hs⟩
          · rw [hy, ok_bind, Reader.map, ← hskip, hs, Option.map_some, Option.bind_some]
            exact ih m hk (by omega)
          · rw [he, err_bind, Reader.map, ← hskip, hs]
            exact .inr ⟨⟨e, rfl⟩, rfl⟩
      · rw [hx, hvarint]
        exact .inr ⟨⟨e, rfl⟩, rfl⟩
    · rw [if_neg (lt_irrefl _), ensure_of (by omega), ok_bind, List.drop_length]
      exact .inl ⟨m, rfl, rfl⟩

/-- `Unmarshal` returns the message that is read from its fields. -/
theorem unmarshal_eq_ok_iff (small : d.length < 2 ^ 63) (safe : ∀ field ∈ fields, field.2.Safe)
    {name : String} {m m' : M} :
    unmarshal name fields m d = .ok m' ↔ (knownFields fields).message m d = some m' := by
  have h := unmarshalLoop_reads small safe name (d.length + 1) m (Nat.zero_le _) (by omega)
  rw [List.drop_zero] at h
  rw [unmarshal]
  rcases h with ⟨m'', hx, ho⟩ | ⟨⟨e, hx⟩, ho⟩
  · rw [hx, ho, Outcome.ok.injEq, Option.some.injEq]
  · simp [hx, ho]

theorem unmarshal_noPanic (small : d.length < 2 ^ 63) (safe : ∀ field ∈ fields, field.2.Safe)
    (name : String) (m : M) : (unmarshal name fields m d).NoPanic := by
  rw [unmarshal]
  rcases unmarshalLoop_reads small safe name (d.length + 1) m (Nat.zero_le _) (by omega) with
    ⟨m', hx, -⟩ | ⟨⟨e, hx⟩, -⟩
  · rw [hx]
    exact noPanic_ok m'
  · rw [hx]
    exact noPanic_err e

end Ics23.Go
