import Ics23.Rust.Preimages

/-!
# Length prefixes

Five of the length operations put the length of the data before it, so that the end of a key in the
preimage of a leaf is where its length says.  The 32-bit operations keep only the low bits of the
length, and `lengths_decodable_iff` says which data this confuses.  Other leaves with the same hash
have the same data, or the hash collides (`applyLeaf_decodable`).
-/

namespace Ics23.Rust

open Outcome Logged

variable {H : HostFunctionsProvider} {P : Prost}

/-! ## The prefix -/

/-- The operation writes the length. -/
def WritesLength (op : LengthOp) : Prop :=
  op ∈ [.varProto, .fixed32Big, .fixed32Little, .fixed64Big, .fixed64Little]

/-- The operation keeps only the low 32 bits of the length. -/
def CutsLength (op : LengthOp) : Prop := op ∈ [.fixed32Big, .fixed32Little]

theorem WritesLength.fits {op : LengthOp} (h : WritesLength op) (n : ℕ) : LengthFits op n := by
  cases op with
  | varRlp | require32Bytes | require64Bytes => simp [WritesLength] at h
  | _ => trivial

/-- The length that a reader of the prefix sees. -/
def writtenLength (op : LengthOp) (n : ℕ) : ℕ :=
  match op with
  | .fixed32Big | .fixed32Little => n % 2 ^ 32
  | _ => n

theorem writtenLength_eq_iff {op : LengthOp} {m n : ℕ} :
    writtenLength op m = writtenLength op n ↔
      m = n ∨ CutsLength op ∧ m % 2 ^ 32 = n % 2 ^ 32 := by
  cases op <;> simp [writtenLength, CutsLength]
  all_goals omega

/-- The prefix ends where it says, and tells the written length. -/
theorem lengthPrefix_append_inj {op : LengthOp} (hop : WritesLength op) {m n : ℕ}
    (hm : m < 2 ^ 64) (hn : n < 2 ^ 64) {s t : Bytes}
    (h : lengthPrefix op m ++ s = lengthPrefix op n ++ t) :
    writtenLength op m = writtenLength op n ∧ s = t := by
  have hlow (k : ℕ) : k % 2 ^ 32 < 256 ^ 4 := Nat.mod_lt _ (by norm_num)
  have hmod {k : ℕ} (hk : k < 2 ^ 64) : k % 2 ^ 64 = k := Nat.mod_eq_of_lt hk
  cases op with
  | varProto => exact Leb128.encode_append_inj h
  | fixed32Big => exact beBytes_append_inj (hlow m) (hlow n) h
  | fixed32Little => exact leBytes_append_inj (hlow m) (hlow n) h
  | fixed64Big =>
    simp only [lengthPrefix, hmod hm, hmod hn] at h
    exact beBytes_append_inj hm hn h
  | fixed64Little =>
    simp only [lengthPrefix, hmod hm, hmod hn] at h
    exact leBytes_append_inj hm hn h
  | _ => simp [WritesLength] at hop

theorem lengthPrefix_eq {op : LengthOp} {m n : ℕ} (h : writtenLength op m = writtenLength op n) :
    lengthPrefix op m = lengthPrefix op n := by
  cases op with
  | fixed32Big => exact congrArg (beBytes 4) h
  | fixed32Little => exact congrArg (leBytes 4) h
  | _ => exact congrArg (lengthPrefix _) h

/-! ## Decoding -/

/-- Two data of different lengths that begin the same string, with lengths that the operation does
not tell apart. -/
def Confused (op : LengthOp) (a b x y : Bytes) : Prop :=
  CutsLength op ∧ a.length % 2 ^ 32 = b.length % 2 ^ 32 ∧ a.length ≠ b.length ∧ a ++ x = b ++ y

theorem lengthPrefix_decodable_iff {op : LengthOp} (hop : WritesLength op) {a b x y : Bytes}
    (ha : a.length < 2 ^ 64) (hb : b.length < 2 ^ 64) :
    (lengthPrefix op a.length ++ a ++ x = lengthPrefix op b.length ++ b ++ y → a = b ∧ x = y) ↔
      ¬ Confused op a b x y := by
  rw [List.append_assoc, List.append_assoc]
  constructor
  · rintro hdecode ⟨hcuts, hmod, hne, heq⟩
    have hwritten := writtenLength_eq_iff.2 (.inr ⟨hcuts, hmod⟩)
    obtain ⟨rfl, -⟩ := hdecode (by rw [lengthPrefix_eq hwritten, heq])
    exact hne rfl
  · intro hnot h
    obtain ⟨hwritten, heq⟩ := lengthPrefix_append_inj hop ha hb h
    rcases writtenLength_eq_iff.1 hwritten with hlen | ⟨hcuts, hmod⟩
    · exact List.append_inj heq hlen
    · have hlen : a.length = b.length := by
        by_contra hne
        exact hnot ⟨hcuts, hmod, hne, heq⟩
      exact List.append_inj heq hlen

variable (P) in
/-- Two data are equal, and so is what follows them, if they begin the same string when they are
prepared. -/
def Decodable (op : LengthOp) (a b x y : Bytes) : Prop :=
  ∀ A B, doLength P op a = .ok A → doLength P op b = .ok B → A ++ x = B ++ y → a = b ∧ x = y

theorem decodable_iff {op : LengthOp} (hop : WritesLength op) {a b x y : Bytes}
    (ha : a.length < 2 ^ 64) (hb : b.length < 2 ^ 64) :
    Decodable P op a b x y ↔ ¬ Confused op a b x y := by
  rw [← lengthPrefix_decodable_iff hop ha hb]
  constructor
  · intro h
    exact h _ _ (doLength_eq_ok.2 ⟨hop.fits _, rfl⟩) (doLength_eq_ok.2 ⟨hop.fits _, rfl⟩)
  · intro h A B hA hB
    obtain ⟨-, rfl⟩ := doLength_eq_ok.1 hA
    obtain ⟨-, rfl⟩ := doLength_eq_ok.1 hB
    exact h

/-! ## Leaves -/

/-- The preimage of a leaf, from the prehashed key and value. -/
theorem leafImage_eq {leaf : LeafOp} {key value k v image : Bytes}
    (hk : (doHash H (hashOpOf leaf.prehashKey) key).out = .ok k)
    (hv : (doHash H (hashOpOf leaf.prehashValue) value).out = .ok v)
    (himage : LeafImage H P leaf key value image) :
    image = leaf.prefix_ ++ (lengthPrefix (lengthOpOf leaf.length) k.length ++ k ++
      (lengthPrefix (lengthOpOf leaf.length) v.length ++ v)) := by
  obtain ⟨prekey, preval, hprekey, hpreval, rfl⟩ := himage
  obtain ⟨-, -, rfl⟩ := (prepareLeafData_eq_ok hk).1 hprekey
  obtain ⟨-, -, rfl⟩ := (prepareLeafData_eq_ok hv).1 hpreval
  rw [List.append_assoc]

/-- Equal preimages have equal prehashed keys and values, unless the keys are confused. -/
theorem leafImage_decodable_iff {leaf : LeafOp} (hop : WritesLength (lengthOpOf leaf.length))
    {key value key' value' k v k' v' image image' : Bytes}
    (hk : (doHash H (hashOpOf leaf.prehashKey) key).out = .ok k)
    (hv : (doHash H (hashOpOf leaf.prehashValue) value).out = .ok v)
    (hk' : (doHash H (hashOpOf leaf.prehashKey) key').out = .ok k')
    (hv' : (doHash H (hashOpOf leaf.prehashValue) value').out = .ok v')
    (size : ∀ data ∈ [k, v, k', v'], data.length < 2 ^ 64)
    (himage : LeafImage H P leaf key value image)
    (himage' : LeafImage H P leaf key' value' image') :
    (image = image' → k = k' ∧ v = v') ↔
      ¬ Confused (lengthOpOf leaf.length) k k'
        (lengthPrefix (lengthOpOf leaf.length) v.length ++ v)
        (lengthPrefix (lengthOpOf leaf.length) v'.length ++ v') := by
  have hkey := lengthPrefix_decodable_iff hop (size k (by simp)) (size k' (by simp))
    (x := lengthPrefix (lengthOpOf leaf.length) v.length ++ v)
    (y := lengthPrefix (lengthOpOf leaf.length) v'.length ++ v')
  -- nothing follows the values, so that they are told apart in any case
  have hvalue (h : lengthPrefix (lengthOpOf leaf.length) v.length ++ v =
      lengthPrefix (lengthOpOf leaf.length) v'.length ++ v') : v = v' := by
    have hvv := lengthPrefix_decodable_iff hop (size v (by simp)) (size v' (by simp))
      (x := []) (y := [])
    refine (hvv.2 ?_ (by rw [List.append_nil, List.append_nil, h])).1
    rintro ⟨-, -, hne, heq⟩
    rw [List.append_nil, List.append_nil] at heq
    exact hne (congrArg List.length heq)
  rw [← hkey, leafImage_eq hk hv himage, leafImage_eq hk' hv' himage', List.append_right_inj]
  constructor
  · intro h heq
    obtain ⟨rfl, rfl⟩ := h heq
    exact ⟨rfl, rfl⟩
  · intro h heq
    obtain ⟨rfl, hv⟩ := h heq
    exact ⟨rfl, hvalue hv⟩

/-- Two leaves with the same hash have equal prehashed keys and values, unless the keys are confused
or the hash collides. -/
theorem applyLeaf_decodable {leaf : LeafOp} (hop : WritesLength (lengthOpOf leaf.length))
    {key value key' value' k v k' v' x : Bytes}
    (hk : (doHash H (hashOpOf leaf.prehashKey) key).out = .ok k)
    (hv : (doHash H (hashOpOf leaf.prehashValue) value).out = .ok v)
    (hk' : (doHash H (hashOpOf leaf.prehashKey) key').out = .ok k')
    (hv' : (doHash H (hashOpOf leaf.prehashValue) value').out = .ok v')
    (size : ∀ data ∈ [k, v, k', v'], data.length < 2 ^ 64)
    (hnot : ¬ Confused (lengthOpOf leaf.length) k k'
      (lengthPrefix (lengthOpOf leaf.length) v.length ++ v)
      (lengthPrefix (lengthOpOf leaf.length) v'.length ++ v'))
    (h : (applyLeaf H P leaf key value).out = .ok x)
    (h' : (applyLeaf H P leaf key' value').out = .ok x) :
    (k = k' ∧ v = v') ∨ ∃ image image', image ≠ image' ∧
      (doHash H (hashOpOf leaf.hash) image).out = .ok x ∧
      (doHash H (hashOpOf leaf.hash) image').out = .ok x := by
  obtain ⟨image, himage, hx⟩ := applyLeaf_iff_leafImage.1 h
  obtain ⟨image', himage', hx'⟩ := applyLeaf_iff_leafImage.1 h'
  by_cases heq : image = image'
  · exact .inl ((leafImage_decodable_iff hop hk hv hk' hv' size himage himage').2 hnot heq)
  · exact .inr ⟨image, image', heq, hx, hx'⟩

/-- A length operation that writes the length makes data and leaves uniquely decodable, except for
data that are confused because only 32 bits of the length are written. -/
theorem lengths_decodable_iff (H : HostFunctionsProvider) (P : Prost) :
    (∀ (op : LengthOp), WritesLength op → ∀ a b x y : Bytes, a.length < 2 ^ 64 →
      b.length < 2 ^ 64 → (Decodable P op a b x y ↔ ¬ Confused op a b x y)) ∧
    (∀ (leaf : LeafOp), WritesLength (lengthOpOf leaf.length) →
      ∀ key value key' value' k v k' v' image image' : Bytes,
        (doHash H (hashOpOf leaf.prehashKey) key).out = .ok k →
        (doHash H (hashOpOf leaf.prehashValue) value).out = .ok v →
        (doHash H (hashOpOf leaf.prehashKey) key').out = .ok k' →
        (doHash H (hashOpOf leaf.prehashValue) value').out = .ok v' →
        (∀ data ∈ [k, v, k', v'], data.length < 2 ^ 64) →
        LeafImage H P leaf key value image → LeafImage H P leaf key' value' image' →
        ((image = image' → k = k' ∧ v = v') ↔
          ¬ Confused (lengthOpOf leaf.length) k k'
            (lengthPrefix (lengthOpOf leaf.length) v.length ++ v)
            (lengthPrefix (lengthOpOf leaf.length) v'.length ++ v'))) := by
  refine ⟨fun op hop a b x y ha hb => decodable_iff hop ha hb, ?_⟩
  intro leaf hop key value key' value' k v k' v' image image' hk hv hk' hv' size himage himage'
  exact leafImage_decodable_iff hop hk hv hk' hv' size himage himage'

/-- Varints tell data of one byte and of two bytes apart, and leaves with different values. -/
theorem varint_decodable :
    Decodable .leb128 .varProto [1] [1, 2] [2] [] ∧
      (([0, 1, 1, 1, 2] : Bytes) = [0, 1, 1, 1, 3] →
        ([1] : Bytes) = [1] ∧ ([2] : Bytes) = [3]) := by
  let leaf : LeafOp := { iavlLeafSpec with prehashValue := 0 }
  obtain ⟨hdata, hleaf⟩ := lengths_decodable_iff .sha256Only .leb128
  have hop : WritesLength .varProto := by simp [WritesLength]
  have hcuts : ¬ CutsLength .varProto := by simp [CutsLength]
  have hone : Leb128.encode 1 = [1] := Leb128.encode_of_lt (by norm_num)
  have hprepare (x : UInt8) :
      (prepareLeafData .sha256Only .leb128 .noHash .varProto [x]).out = .ok [1, x] :=
    (prepareLeafData_eq_ok rfl).2 ⟨by simp, trivial, by simp [lengthPrefix, hone]⟩
  have himage (x : UInt8) : LeafImage .sha256Only .leb128 leaf [1] [x] [0, 1, 1, 1, x] :=
    ⟨[1, 1], [1, x], hprepare 1, hprepare x, rfl⟩
  refine ⟨(hdata .varProto hop _ _ _ _ (by simp) (by simp)).2 fun h => hcuts h.1, ?_⟩
  exact (hleaf leaf hop [1] [2] [1] [3] [1] [2] [1] [3] _ _ rfl rfl rfl rfl (by simp) (himage 2)
    (himage 3)).2 fun h => hcuts h.1

/-- Data of one byte are confused with longer ones when a multiple of `2 ^ 32` bytes are added. -/
theorem confused_replicate {n : ℕ} (hpos : n ≠ 0) (hn : n % 2 ^ 32 = 0) :
    Confused .fixed32Big [0] (List.replicate (n + 1) 0) (List.replicate n 0) [] := by
  refine ⟨by simp [CutsLength], ?_, ?_, ?_⟩
  · rw [List.length_replicate, List.length_singleton]
    omega
  · rw [List.length_replicate, List.length_singleton]
    omega
  · rw [List.append_nil, List.singleton_append, List.replicate_succ]

/-- One zero and `2 ^ 32 + 1` zeros are prepared with the same length. -/
theorem not_decodable_longData :
    ¬ Decodable .leb128 .fixed32Big [0] (List.replicate (2 ^ 32 + 1) 0)
      (List.replicate (2 ^ 32) 0) [] := by
  intro h
  have hlong : (List.replicate (2 ^ 32 + 1) (0 : UInt8)).length < 2 ^ 64 := by
    rw [List.length_replicate]
    norm_num
  exact (decodable_iff (by simp [WritesLength]) (by simp) hlong).1 h
    (confused_replicate (by norm_num) (by norm_num))

end Ics23.Rust
