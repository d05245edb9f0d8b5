import Ics23.Lib.Leb128
import Ics23.Lib.Loops

/-!
# The protobuf wire format

A message is a sequence of fields.  A field begins with a tag, a varint that holds the number of the
field and its wire type, and the wire type says how the payload is laid out: a varint, eight or four
bytes, a length and as many bytes, or a group of fields up to an end tag.

A varint has up to ten groups of seven bits, of which a reader of `w` bits keeps the low `w` bits.
`message fields` runs through a string and changes a message by the fields that are known to it;
the others are skipped (`skip`), however deeply they nest groups.

* `message_append`: two strings one after the other are read one after the other.
* `skip_encode`, `message_unknown`: a field that is not known has no effect.
-/

namespace Ics23.Wire

open Reader Leb128

/-! ### Varints -/

/-- Read a varint of at most `k` groups. -/
def varintFuel : ℕ → Reader UInt8 ℕ
  | 0, _ => none
  | _ + 1, [] => none
  | k + 1, b :: s =>
    if b.toNat < 128 then some (b.toNat, s)
    else (varintFuel k s).map fun (v, rest) => (b.toNat - 128 + 128 * v, rest)

/-- Read a varint. -/
def varint : Reader UInt8 ℕ := varintFuel 10

theorem varintFuel_selfDelimiting (k : ℕ) : (varintFuel k).SelfDelimiting := by
  induction k with
  | zero =>
    intro s v rest h
    simp [varintFuel] at h
  | succ k ih =>
    intro s v rest h
    cases s with
    | nil => simp [varintFuel] at h
    | cons b s =>
      unfold varintFuel at h
      split_ifs at h with hb
      · simp only [Option.some.injEq, Prod.mk.injEq] at h
        obtain ⟨rfl, rfl⟩ := h
        refine ⟨[b], rfl, fun t => ?_⟩
        rw [List.singleton_append, varintFuel, if_pos hb]
      · obtain ⟨⟨w, r⟩, hw, he⟩ := Option.map_eq_some_iff.1 h
        simp only [Prod.mk.injEq] at he
        obtain ⟨rfl, rfl⟩ := he
        obtain ⟨read, rfl, hread⟩ := ih hw
        refine ⟨b :: read, rfl, fun t => ?_⟩
        rw [List.cons_append, varintFuel, if_neg hb, hread]
        rfl

theorem varintFuel_progress (k : ℕ) : (varintFuel k).Progress := by
  induction k with
  | zero =>
    intro s v rest h
    simp [varintFuel] at h
  | succ k ih =>
    intro s v rest h
    cases s with
    | nil => simp [varintFuel] at h
    | cons b s =>
      rw [List.length_cons]
      unfold varintFuel at h
      split_ifs at h with hb
      · simp only [Option.some.injEq, Prod.mk.injEq] at h
        rw [h.2]
        exact Nat.lt_succ_self _
      · obtain ⟨⟨w, r⟩, hw, he⟩ := Option.map_eq_some_iff.1 h
        simp only [Prod.mk.injEq] at he
        obtain ⟨_, rfl⟩ := he
        exact (ih hw).trans (Nat.lt_succ_self _)

theorem varint_selfDelimiting : varint.SelfDelimiting := varintFuel_selfDelimiting 10

theorem varint_progress : varint.Progress := varintFuel_progress 10

theorem varintFuel_encode_of_lt (k : ℕ) {n : ℕ} (t : Bytes) (h : n < 128) :
    varintFuel (k + 1) (encode n ++ t) = some (n, t) := by
  rw [encode_of_lt h, List.singleton_append, varintFuel, toNat_ofNat_of_lt (by omega), if_pos h]

theorem varintFuel_encode (k : ℕ) {n : ℕ} (t : Bytes) (h : n < 2 ^ (7 * (k + 1))) :
    varintFuel (k + 1) (encode n ++ t) = some (n, t) := by
  induction k generalizing n with
  | zero => exact varintFuel_encode_of_lt 0 t h
  | succ k ih =>
    rcases Nat.lt_or_ge n 128 with hn | hn
    · exact varintFuel_encode_of_lt (k + 1) t hn
    · have hq : n / 128 < 2 ^ (7 * (k + 1)) := by
        rw [Nat.div_lt_iff_lt_mul (by omega)]
        calc n < 2 ^ (7 * (k + 1 + 1)) := h
          _ = 2 ^ (7 * (k + 1)) * 128 := by rw [Nat.mul_succ, pow_add]; norm_num
      rw [encode_of_le hn, List.cons_append, varintFuel, toNat_ofNat_of_lt (by omega),
        if_neg (by omega), ih hq, Option.map_some]
      have hsum : n % 128 + 128 - 128 + 128 * (n / 128) = n := by omega
      simp only [hsum]

/-- Canonical encodings are read back. -/
theorem varint_encode {n : ℕ} (t : Bytes) (h : n < 2 ^ 64) :
    varint (encode n ++ t) = some (n, t) :=
  varintFuel_encode 9 t (h.trans (by norm_num))

theorem varint_self {n : ℕ} (h : n < 2 ^ 64) : varint (encode n) = some (n, []) := by
  simpa only [List.append_nil] using varint_encode [] h

/-! ### Payloads -/

/-- Take `n` bytes. -/
def take (n : ℕ) : Reader UInt8 Bytes := fun s =>
  if n ≤ s.length then some (s.take n, s.drop n) else none

/-- Read a length and as many bytes. -/
def delimited : Reader UInt8 Bytes := varint.bind fun n => take (n % 2 ^ 64)

/-- One more number, of which there are some until `k` bytes are used up. -/
def packedStep : ℕ × List ℕ → Reader UInt8 ((ℕ × List ℕ) ⊕ List ℕ)
  | (k, ns), s => (varint s).map fun (n, rest) =>
    (if s.length - rest.length < k then .inl (k - (s.length - rest.length), ns ++ [n])
      else .inr (ns ++ [n]), rest)

/-- Varints until `k` bytes are used up; the last of them may go beyond. -/
def packedWithin (k : ℕ) : Reader UInt8 (List ℕ) := fun s =>
  if s.length < k then none else if k = 0 then some ([], s) else loop packedStep (k, []) s

/-- Read a length and varints until as many bytes are used up. -/
def packed : Reader UInt8 (List ℕ) := varint.bind fun n => packedWithin (n % 2 ^ 64)

theorem take_append (b t : Bytes) : take b.length (b ++ t) = some (b, t) := by
  simp [take]

theorem take_selfDelimiting (n : ℕ) : (take n).SelfDelimiting := by
  intro s b rest h
  unfold take at h
  split_ifs at h with hn
  simp only [Option.some.injEq, Prod.mk.injEq] at h
  obtain ⟨rfl, rfl⟩ := h
  refine ⟨s.take n, (List.take_append_drop n s).symm, fun t => ?_⟩
  have hlen : (s.take n).length = n := by rw [List.length_take, min_eq_left hn]
  have htake := take_append (s.take n) t
  rwa [hlen] at htake

theorem delimited_selfDelimiting : delimited.SelfDelimiting :=
  varint_selfDelimiting.bind fun n => take_selfDelimiting (n % 2 ^ 64)

theorem delimited_encode {b : Bytes} (t : Bytes) (h : b.length < 2 ^ 64) :
    delimited (encode b.length ++ (b ++ t)) = some (b, t) :=
  bind_eq_some.2 ⟨b.length, b ++ t, varint_encode _ h, by rw [Nat.mod_eq_of_lt h, take_append]⟩

theorem delimited_self {b : Bytes} (h : b.length < 2 ^ 64) :
    delimited (encode b.length ++ b) = some (b, []) := by
  simpa only [List.append_nil] using delimited_encode [] h

theorem packedStep_progress (a : ℕ × List ℕ) : (packedStep a).Progress := by
  intro s x rest h
  obtain ⟨⟨n, r⟩, hn, he⟩ := Option.map_eq_some_iff.1 h
  simp only [Prod.mk.injEq] at he
  exact he.2 ▸ varint_progress hn

theorem packedStep_selfDelimiting (a : ℕ × List ℕ) : (packedStep a).SelfDelimiting := by
  intro s x rest h
  obtain ⟨⟨n, r⟩, hn, he⟩ := Option.map_eq_some_iff.1 h
  simp only [Prod.mk.injEq] at he
  obtain ⟨rfl, rfl⟩ := he
  obtain ⟨read, rfl, hread⟩ := varint_selfDelimiting hn
  refine ⟨read, rfl, fun t => ?_⟩
  simp [packedStep, hread]

/-- What a loop over packed numbers uses up. -/
theorem length_packed {k : ℕ} {ns ns' : List ℕ} {s rest : Bytes}
    (h : loop packedStep (k, ns) s = some (ns', rest)) : k ≤ s.length := by
  induction hn : s.length using Nat.strong_induction_on generalizing k ns s with
  | _ n ih =>
    rw [loop_eq packedStep_progress] at h
    cases hstep : packedStep (k, ns) s with
    | none => simp [hstep] at h
    | some y =>
      obtain ⟨⟨n', r⟩, hv, he⟩ := Option.map_eq_some_iff.1 hstep
      have hlt : r.length < s.length := varint_progress hv
      subst he
      by_cases hk : s.length - r.length < k
      · simp only [hstep, if_pos hk] at h
        have := ih r.length (by omega) h rfl
        omega
      · omega

theorem packedWithin_selfDelimiting (k : ℕ) : (packedWithin k).SelfDelimiting := by
  intro s ns rest h
  unfold packedWithin at h
  split_ifs at h with hlen hzero
  · simp only [Option.some.injEq, Prod.mk.injEq] at h
    obtain ⟨rfl, rfl⟩ := h
    exact ⟨[], rfl, fun t => by simp [packedWithin, hzero]⟩
  · obtain ⟨read, rfl, hread⟩ :=
      loop_selfDelimiting packedStep_progress packedStep_selfDelimiting _ h
    refine ⟨read, rfl, fun t => ?_⟩
    have hle := length_packed (hread [])
    rw [List.append_nil] at hle
    rw [packedWithin, if_neg (by rw [List.length_append]; omega), if_neg hzero, hread]

theorem packed_selfDelimiting : packed.SelfDelimiting :=
  varint_selfDelimiting.bind fun n => packedWithin_selfDelimiting (n % 2 ^ 64)

theorem loop_packedStep (ns : List ℕ) {n : ℕ} {ms : List ℕ} (t : Bytes)
    (h : ∀ m ∈ n :: ms, m < 2 ^ 64) :
    loop packedStep (((n :: ms).flatMap encode).length, ns) ((n :: ms).flatMap encode ++ t) =
      some (ns ++ n :: ms, t) := by
  induction ms generalizing n ns with
  | nil =>
    have hstep : packedStep ((encode n).length, ns) (encode n ++ t) =
        some (.inr (ns ++ [n]), t) := by
      simp [packedStep, varint_encode t (h n (List.mem_singleton_self n))]
    simp only [List.flatMap_cons, List.flatMap_nil, List.append_nil]
    rw [loop_eq packedStep_progress, hstep]
  | cons m ms ih =>
    have hpos := encode_length_pos m
    have hn := h n List.mem_cons_self
    have hstep : packedStep (((n :: m :: ms).flatMap encode).length, ns)
        ((n :: m :: ms).flatMap encode ++ t) =
        some (.inl (((m :: ms).flatMap encode).length, ns ++ [n]),
          (m :: ms).flatMap encode ++ t) := by
      rw [List.flatMap_cons, List.append_assoc, packedStep, varint_encode _ hn, Option.map_some]
      simp only [List.length_append, List.flatMap_cons]
      rw [if_pos (by omega)]
      congr 4
      omega
    rw [loop_eq packedStep_progress, hstep]
    simpa using ih (ns ++ [n]) fun x hx => h x (List.mem_cons_of_mem n hx)

theorem packed_encode {ns : List ℕ} (t : Bytes) (h : ∀ n ∈ ns, n < 2 ^ 64)
    (hlen : (ns.flatMap encode).length < 2 ^ 64) :
    packed (encode (ns.flatMap encode).length ++ (ns.flatMap encode ++ t)) = some (ns, t) := by
  refine bind_eq_some.2 ⟨_, _, varint_encode _ hlen, ?_⟩
  rw [Nat.mod_eq_of_lt hlen, packedWithin, if_neg (by rw [List.length_append]; omega)]
  cases ns with
  | nil => simp
  | cons n ns =>
    have hpos := encode_length_pos n
    rw [if_neg (by rw [List.flatMap_cons, List.length_append]; omega)]
    exact loop_packedStep [] t h

theorem packed_self {ns : List ℕ} (h : ∀ n ∈ ns, n < 2 ^ 64)
    (hlen : (ns.flatMap encode).length < 2 ^ 64) :
    packed (encode (ns.flatMap encode).length ++ ns.flatMap encode) = some (ns, []) := by
  simpa only [List.append_nil] using packed_encode [] h hlen

/-! ### Skipping a field -/

/-- Read a payload, given and returning the number of groups that are open. -/
def skipPayload (wireType depth : ℕ) : Reader UInt8 ℕ :=
  match wireType with
  | 0 => varint.map fun _ => depth
  | 1 => (take 8).map fun _ => depth
  | 2 => delimited.map fun _ => depth
  | 3 => done (depth + 1)
  | 4 => if depth = 0 then refuse else done (depth - 1)
  | 5 => (take 4).map fun _ => depth
  | _ => refuse

/-- Read a tag and its payload; the field ends when no group is open. -/
def skipStep (depth : ℕ) : Reader UInt8 (ℕ ⊕ Unit) :=
  varint.bind fun tag => (skipPayload (tag % 8) depth).map fun depth' =>
    if depth' = 0 then .inr () else .inl depth'

/-- Skip a field. -/
def skip : Reader UInt8 Unit := loop skipStep 0

/-- Skip what comes after the tag of a field. -/
def skipRest (tag : ℕ) : Reader UInt8 Unit :=
  (skipPayload (tag % 8) 0).bind fun depth => if depth = 0 then done () else loop skipStep depth

theorem skipPayload_selfDelimiting (wireType depth : ℕ) :
    (skipPayload wireType depth).SelfDelimiting := by
  unfold skipPayload
  split
  · exact varint_selfDelimiting.map
  · exact (take_selfDelimiting 8).map
  · exact delimited_selfDelimiting.map
  · exact done_selfDelimiting _
  · split_ifs
    · exact refuse_selfDelimiting
    · exact done_selfDelimiting _
  · exact (take_selfDelimiting 4).map
  · exact refuse_selfDelimiting

theorem skipStep_progress (depth : ℕ) : (skipStep depth).Progress :=
  varint_progress.bind fun _ => (skipPayload_selfDelimiting _ _).map

theorem skipStep_selfDelimiting (depth : ℕ) : (skipStep depth).SelfDelimiting :=
  varint_selfDelimiting.bind fun _ => (skipPayload_selfDelimiting _ _).map

theorem skipRest_selfDelimiting (tag : ℕ) : (skipRest tag).SelfDelimiting := by
  refine (skipPayload_selfDelimiting _ _).bind fun depth => ?_
  split_ifs
  · exact done_selfDelimiting ()
  · exact loop_selfDelimiting skipStep_progress skipStep_selfDelimiting depth

/-- A field is its tag and what comes after it. -/
theorem skip_eq (s : Bytes) : skip s = varint.bind skipRest s := by
  rw [skip, loop_eq skipStep_progress]
  simp only [skipStep, skipRest, Reader.bind, Reader.map]
  cases varint s with
  | none => rfl
  | some y =>
    simp only [Option.bind_some]
    cases skipPayload (y.1 % 8) 0 y.2 with
    | none => rfl
    | some z =>
      simp only [Option.map_some, Option.bind_some]
      by_cases hz : z.1 = 0
      · simp only [hz, if_true]
        rfl
      · simp only [hz, if_false]

/-! ### Fields -/

/-- The canonical tag of a field. -/
def tag (num wireType : ℕ) : Bytes := encode (num * 8 + wireType)

/-- A field with any payload. -/
inductive Item where
  | varint (num : Fin (2 ^ 29)) (n : UInt64)
  | fixed64 (num : Fin (2 ^ 29)) (w : UInt64)
  | delimited (num : Fin (2 ^ 29)) (b : Bytes)
  | group (num : Fin (2 ^ 29)) (items : List Item)
  | fixed32 (num : Fin (2 ^ 29)) (w : UInt32)

namespace Item

def num : Item → Fin (2 ^ 29)
  | .varint num _ => num
  | .fixed64 num _ => num
  | .delimited num _ => num
  | .group num _ => num
  | .fixed32 num _ => num

def wireType : Item → ℕ
  | .varint _ _ => 0
  | .fixed64 _ _ => 1
  | .delimited _ _ => 2
  | .group _ _ => 3
  | .fixed32 _ _ => 5

mutual

/-- The canonical encoding of a field. -/
def encode : Item → Bytes
  | .varint num n => tag num 0 ++ Leb128.encode n.toNat
  | .fixed64 num w => tag num 1 ++ leBytes 8 w.toNat
  | .delimited num b => tag num 2 ++ (Leb128.encode b.length ++ b)
  | .group num items => tag num 3 ++ (encodeAll items ++ tag num 4)
  | .fixed32 num w => tag num 5 ++ leBytes 4 w.toNat

/-- The encodings of some fields, one after the other. -/
def encodeAll : List Item → Bytes
  | [] => []
  | item :: items => item.encode ++ encodeAll items

end

end Item

theorem varint_tag {num wireType : ℕ} (t : Bytes) (hnum : num < 2 ^ 29) (hwire : wireType < 8) :
    varint (tag num wireType ++ t) = some (num * 8 + wireType, t) := varint_encode t (by omega)

theorem skipStep_tag {num wireType : ℕ} (depth : ℕ) (t : Bytes) (hnum : num < 2 ^ 29)
    (hwire : wireType < 8) :
    skipStep depth (tag num wireType ++ t) =
      ((skipPayload wireType depth).map fun depth' =>
        if depth' = 0 then (.inr () : ℕ ⊕ Unit) else .inl depth') t := by
  have hmod : (num * 8 + wireType) % 8 = wireType := by omega
  simp only [skipStep, Reader.bind, varint_tag t hnum hwire, Option.bind_some, hmod]

/-- A field without groups ends where it began to be open. -/
theorem loop_skip_of_payload {num wireType depth : ℕ} {p t : Bytes} (hnum : num < 2 ^ 29)
    (hwire : wireType < 8) (h : skipPayload wireType depth (p ++ t) = some (depth, t)) :
    loop skipStep depth (tag num wireType ++ (p ++ t)) =
      if depth = 0 then some ((), t) else loop skipStep depth t := by
  rw [loop_eq skipStep_progress, skipStep_tag depth _ hnum hwire, Reader.map, h, Option.map_some]
  by_cases hzero : depth = 0
  · simp only [hzero, if_true]
  · simp only [hzero, if_false]

mutual

/-- Skipping goes over a field, whatever groups are open before it. -/
theorem loop_skip_encode (item : Item) (depth : ℕ) (t : Bytes)
    (h : item.encode.length < 2 ^ 64) :
    loop skipStep depth (item.encode ++ t) =
      if depth = 0 then some ((), t) else loop skipStep depth t := by
  cases item with
  | varint num n =>
    rw [Item.encode, List.append_assoc]
    refine loop_skip_of_payload num.isLt (by omega) ?_
    rw [skipPayload, Reader.map, varint_encode t n.toNat_lt, Option.map_some]
  | fixed64 num w =>
    rw [Item.encode, List.append_assoc]
    refine loop_skip_of_payload num.isLt (by omega) ?_
    have htake := take_append (leBytes 8 w.toNat) t
    rw [length_leBytes] at htake
    rw [skipPayload, Reader.map, htake, Option.map_some]
  | delimited num b =>
    rw [Item.encode, List.append_assoc]
    refine loop_skip_of_payload num.isLt (by omega) ?_
    simp only [Item.encode, List.length_append] at h
    rw [skipPayload, Reader.map, List.append_assoc, delimited_encode t (by omega), Option.map_some]
  | group num items =>
    simp only [Item.encode, List.length_append] at h
    rw [Item.encode, List.append_assoc, List.append_assoc, loop_eq skipStep_progress,
      skipStep_tag depth _ num.isLt (by omega)]
    simp only [skipPayload, Reader.map, done, Option.map_some, Nat.add_eq_zero_iff, one_ne_zero,
      and_false, if_false]
    rw [loop_skip_encodeAll items depth _ (by omega), loop_eq skipStep_progress,
      skipStep_tag (depth + 1) _ num.isLt (by omega)]
    simp only [skipPayload, Reader.map, done, Nat.add_eq_zero_iff, one_ne_zero, and_false, if_false,
      Nat.add_sub_cancel, Option.map_some]
    by_cases hzero : depth = 0
    · simp only [hzero, if_true]
    · simp only [hzero, if_false]
  | fixed32 num w =>
    rw [Item.encode, List.append_assoc]
    refine loop_skip_of_payload num.isLt (by omega) ?_
    have htake := take_append (leBytes 4 w.toNat) t
    rw [length_leBytes] at htake
    rw [skipPayload, Reader.map, htake, Option.map_some]

/-- Inside a group, skipping goes over any number of fields. -/
theorem loop_skip_encodeAll (items : List Item) (depth : ℕ) (t : Bytes)
    (h : (Item.encodeAll items).length < 2 ^ 64) :
    loop skipStep (depth + 1) (Item.encodeAll items ++ t) = loop skipStep (depth + 1) t := by
  cases items with
  | nil => rw [Item.encodeAll, List.nil_append]
  | cons item items =>
    simp only [Item.encodeAll, List.length_append] at h
    rw [Item.encodeAll, List.append_assoc, loop_skip_encode item (depth + 1) _ (by omega),
      if_neg (Nat.succ_ne_zero depth), loop_skip_encodeAll items depth t (by omega)]

end

/-- A field is skipped as a whole. -/
theorem skip_encode (item : Item) (t : Bytes) (h : item.encode.length < 2 ^ 64) :
    skip (item.encode ++ t) = some ((), t) := by
  rw [skip, loop_skip_encode item 0 t h, if_pos rfl]

/-! ### Messages -/

/-- The fields a message knows, by their numbers: how a payload of some wire type changes it. -/
structure Fields (M : Type) where
  read : ℕ → Option (ℕ → M → Reader UInt8 M)
  selfDelimiting : ∀ {num r}, read num = some r → ∀ wireType m, (r wireType m).SelfDelimiting

variable {M : Type}

/-- The number of the field with a given tag, as a number of 32 bits. -/
def fieldNumber (tag : ℕ) : ℕ := tag % 2 ^ 64 / 8 % 2 ^ 32

/-- What comes after a tag. -/
def Fields.payload (fields : Fields M) (tag : ℕ) (m : M) : Reader UInt8 M :=
  if tag % 8 = 4 ∨ fieldNumber tag = 0 ∨ 2 ^ 31 ≤ fieldNumber tag then refuse
  else
    match fields.read (fieldNumber tag) with
    | some r => r (tag % 8) m
    | none => (skipRest tag).map fun _ => m

/-- Read a field. -/
def Fields.field (fields : Fields M) (m : M) : Reader UInt8 M :=
  varint.bind fun tag => fields.payload tag m

/-- Read all fields of a string into a message. -/
def Fields.message (fields : Fields M) (m : M) (s : Bytes) : Option M := many fields.field m s

namespace Fields

variable {fields : Fields M} {m m' : M}

theorem payload_selfDelimiting (tag : ℕ) (m : M) : (fields.payload tag m).SelfDelimiting := by
  unfold payload
  split_ifs
  · exact refuse_selfDelimiting
  · split
    · exact fields.selfDelimiting ‹_› _ _
    · exact (skipRest_selfDelimiting tag).map

theorem field_selfDelimiting (m : M) : (fields.field m).SelfDelimiting :=
  varint_selfDelimiting.bind fun tag => payload_selfDelimiting tag m

theorem field_progress (m : M) : (fields.field m).Progress :=
  varint_progress.bind fun tag => payload_selfDelimiting tag m

@[simp] theorem message_nil : fields.message m [] = some m := rfl

/-- As long as something is left, there is one more field. -/
theorem message_eq {s : Bytes} (h : s ≠ []) :
    fields.message m s = (fields.field m s).bind fun y => fields.message y.1 y.2 :=
  many_eq field_progress m h

/-- Two strings, one after the other. -/
theorem message_append {s : Bytes} (t : Bytes) (h : fields.message m s = some m') :
    fields.message m (s ++ t) = fields.message m' t :=
  many_append field_progress field_selfDelimiting h t

/-- A message is read from two strings when it is read from the first and from the second. -/
theorem message_trans {m'' : M} {s t : Bytes} (h : fields.message m s = some m')
    (h' : fields.message m' t = some m'') : fields.message m (s ++ t) = some m'' := by
  rw [message_append t h, h']

theorem field_tag {num wireType : ℕ} (t : Bytes) (hnum : num < 2 ^ 29) (hwire : wireType < 8) :
    fields.field m (tag num wireType ++ t) = fields.payload (num * 8 + wireType) m t := by
  rw [field, Reader.bind, varint_tag t hnum hwire, Option.bind_some]

theorem fieldNumber_tag {num wireType : ℕ} (hnum : num < 2 ^ 29) (hwire : wireType < 8) :
    fieldNumber (num * 8 + wireType) = num := by
  unfold fieldNumber
  omega

/-- A field that is known. -/
theorem message_known {num wireType : ℕ} {r : ℕ → M → Reader UInt8 M} {p : Bytes}
    (hread : fields.read num = some r) (hnum : 0 < num ∧ num < 2 ^ 29)
    (hwire : wireType < 8 ∧ wireType ≠ 4) (h : r wireType m p = some (m', [])) :
    fields.message m (tag num wireType ++ p) = some m' := by
  refine (many_of_step field_progress ?_).trans message_nil
  rw [field_tag _ hnum.2 hwire.1, payload, fieldNumber_tag hnum.2 hwire.1, if_neg (by omega), hread]
  simp only
  rwa [show (num * 8 + wireType) % 8 = wireType by omega]

/-- A field that is not known. -/
theorem message_unknown (item : Item) (hread : fields.read item.num = none)
    (hpos : 0 < (item.num : ℕ)) (h : item.encode.length < 2 ^ 64) :
    fields.message m item.encode = some m := by
  refine (many_of_step field_progress ?_).trans message_nil
  have hskip := skip_encode item [] h
  rw [skip_eq] at hskip
  obtain ⟨tag', s', htag, hrest⟩ := bind_eq_some.1 hskip
  have htag' : tag' = item.num * 8 + item.wireType := by
    cases item <;>
      (rw [Item.encode, List.append_assoc, varint_tag _ (Fin.isLt _) (by omega)] at htag
       exact (congrArg Prod.fst (Option.some.inj htag)).symm)
  subst htag'
  rw [List.append_nil] at htag
  have hwire : item.wireType < 8 ∧ item.wireType ≠ 4 := by cases item <;> simp [Item.wireType]
  have hnum := item.num.isLt
  refine bind_eq_some.2 ⟨_, s', htag, ?_⟩
  rw [payload, fieldNumber_tag hnum hwire.1, if_neg (by omega), hread]
  exact map_eq_some.2 ⟨(), hrest, rfl⟩

end Fields

/-! ### Encoding a message -/

/-- A number, left out if it is zero. -/
def numberField (num n : ℕ) : Bytes := if n = 0 then [] else tag num 0 ++ encode n

/-- A string with its length. -/
def lengthField (num : ℕ) (b : Bytes) : Bytes := tag num 2 ++ (encode b.length ++ b)

/-- A string, left out if it is empty. -/
def bytesField (num : ℕ) (b : Bytes) : Bytes := if b = [] then [] else lengthField num b

/-- An embedded message, left out if there is none. -/
def optionField (num : ℕ) (b : Option Bytes) : Bytes := b.elim [] (lengthField num)

/-- Embedded messages, one after the other. -/
def repeatedField (num : ℕ) (bs : List Bytes) : Bytes := bs.flatMap (lengthField num)

/-- Numbers packed into one string, left out if there are none. -/
def packedField (num : ℕ) (ns : List ℕ) : Bytes :=
  if ns = [] then [] else lengthField num (ns.flatMap encode)

/-- A tag of one byte. -/
theorem tag_eq {num wireType : ℕ} (h : num * 8 + wireType < 128) :
    tag num wireType = [UInt8.ofNat (num * 8 + wireType)] := encode_of_lt h

end Ics23.Wire
