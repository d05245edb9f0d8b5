import Ics23.Lib.SlotNode
import Ics23.Rust.Binary

/-!
# Preimages of inner nodes

What the checks on leaf and inner ops say about the strings that are hashed, for any spec.

* `separated_iff`: no inner node can be passed off as a leaf, if and only if no accepted inner op
  has a prefix that is shorter than the leaf prefix.  Then a leaf and an inner node with the same
  hash are a collision (`LeafPrefixFits.applyLeaf_eq_applyInner`).
* `ensureInner_cut_eq_slot`: an accepted inner op cuts a real slot out of a node.
-/

namespace Ics23.Rust

open Outcome Logged

variable {H : HostFunctionsProvider} {P : Prost}

/-! ## The hashed strings -/

variable (H P)

/-- The string that `apply_leaf` hashes. -/
def LeafImage (leaf : LeafOp) (key value image : Bytes) : Prop :=
  ∃ prekey preval,
    (prepareLeafData H P (hashOpOf leaf.prehashKey) (lengthOpOf leaf.length) key).out =
      .ok prekey ∧
    (prepareLeafData H P (hashOpOf leaf.prehashValue) (lengthOpOf leaf.length) value).out =
      .ok preval ∧
    image = leaf.prefix_ ++ prekey ++ preval

/-- The string that `apply_inner` hashes. -/
def innerImage (inner : InnerOp) (child : Bytes) : Bytes := inner.prefix_ ++ child ++ inner.suffix

variable {H P}

theorem applyLeaf_iff_leafImage {leaf : LeafOp} {key value x : Bytes} :
    (applyLeaf H P leaf key value).out = .ok x ↔
      ∃ image, LeafImage H P leaf key value image ∧
        (doHash H (hashOpOf leaf.hash) image).out = .ok x := by
  simp only [applyLeaf, LeafImage, ← yields_univ_iff, yields_bind]
  constructor
  · rintro ⟨prekey, hkey, preval, hvalue, hx⟩
    exact ⟨_, ⟨prekey, preval, hkey, hvalue, rfl⟩, hx⟩
  · rintro ⟨_, ⟨prekey, preval, hkey, hvalue, rfl⟩, hx⟩
    exact ⟨prekey, hkey, preval, hvalue, hx⟩

theorem applyInner_iff_innerImage {inner : InnerOp} {child x : Bytes} :
    (applyInner H inner child).out = .ok x ↔
      child ≠ [] ∧ (doHash H (hashOpOf inner.hash) (innerImage inner child)).out = .ok x := by
  simp only [applyInner, innerImage, ← yields_univ_iff, yields_seq, yields_liftM, ensure_eq_ok]

/-! ### Leaf data -/

/-- The length of a digest, if the data is hashed at all. -/
def digestLength : HashOp → Option ℕ
  | .noHash => none
  | .sha512 | .blake2b512 => some 64
  | .ripemd160 | .bitcoin => some 20
  | .sha256 | .keccak256 | .sha512256 | .blake2s256 | .blake3 => some 32

/-- The length operation accepts data of the given length. -/
def LengthFits (length : LengthOp) (n : ℕ) : Prop :=
  match length with
  | .varRlp => False
  | .require32Bytes => n = 32
  | .require64Bytes => n = 64
  | _ => True

/-- Some data can be prepared for a leaf. -/
def Preparable (hash : HashOp) (length : LengthOp) : Prop :=
  ∃ n, 0 < n ∧ LengthFits length ((digestLength hash).getD n)

theorem doHash_length (hash : HashOp) (data : Bytes) :
    ∃ h, (doHash H hash data).out = .ok h ∧ h.length = (digestLength hash).getD data.length := by
  cases hash with
  | noHash => exact ⟨data, rfl, rfl⟩
  | sha256 => exact ⟨_, rfl, H.length_sha data⟩
  | _ => exact ⟨_, rfl, Digest.length_val _⟩

/-- What a length operation puts before data of the given length. -/
def lengthPrefix (op : LengthOp) (n : ℕ) : Bytes :=
  match op with
  | .varProto => Leb128.encode n
  | .fixed32Big => beBytes 4 (n % 2 ^ 32)
  | .fixed32Little => leBytes 4 (n % 2 ^ 32)
  | .fixed64Big => beBytes 8 (n % 2 ^ 64)
  | .fixed64Little => leBytes 8 (n % 2 ^ 64)
  | _ => []

theorem doLength_eq_ok {op : LengthOp} {data x : Bytes} :
    doLength P op data = .ok x ↔
      LengthFits op data.length ∧ x = lengthPrefix op data.length ++ data := by
  cases op with
  | require32Bytes | require64Bytes =>
    simp [doLength, LengthFits, lengthPrefix, seq_eq_ok, eq_comm (a := data)]
  | _ => simp [doLength, LengthFits, lengthPrefix, protoLen, P.encodeVarint_eq, eq_comm]

theorem prepareLeafData_eq_ok {hash : HashOp} {length : LengthOp} {data h x : Bytes}
    (hh : (doHash H hash data).out = .ok h) :
    (prepareLeafData H P hash length data).out = .ok x ↔
      data ≠ [] ∧ LengthFits length h.length ∧ x = lengthPrefix length h.length ++ h := by
  rw [← doLength_eq_ok (P := P)]
  simp only [prepareLeafData, ← yields_univ_iff, yields_seq, yields_liftM, ensure_eq_ok,
    (yields_univ_iff.2 hh).bind_iff]

theorem prepareLeafData_isOk_iff {hash : HashOp} {length : LengthOp} {data : Bytes} :
    (∃ x, (prepareLeafData H P hash length data).out = .ok x) ↔
      data ≠ [] ∧ LengthFits length ((digestLength hash).getD data.length) := by
  obtain ⟨h, hh, hlen⟩ := doHash_length (H := H) hash data
  simp only [← hlen, prepareLeafData_eq_ok hh, exists_and_left, exists_eq, and_true]

theorem preparable_iff {hash : HashOp} {length : LengthOp} :
    Preparable hash length ↔ ∃ data x, (prepareLeafData H P hash length data).out = .ok x := by
  simp only [prepareLeafData_isOk_iff]
  constructor
  · rintro ⟨n, hn, hfits⟩
    exact ⟨List.replicate n 0, by simpa using hn.ne', by simpa using hfits⟩
  · rintro ⟨data, hdata, hfits⟩
    exact ⟨data.length, List.length_pos_iff.2 hdata, hfits⟩

theorem LeafImage.data_ne {leaf : LeafOp} {key value image : Bytes}
    (h : LeafImage H P leaf key value image) : key ≠ [] ∧ value ≠ [] := by
  obtain ⟨prekey, preval, hkey, hvalue, -⟩ := h
  exact ⟨(prepareLeafData_isOk_iff.1 ⟨_, hkey⟩).1, (prepareLeafData_isOk_iff.1 ⟨_, hvalue⟩).1⟩

/-! ## Separation -/

/-- No accepted leaf op and accepted inner op ever hash the same string. -/
def Separated (H : HostFunctionsProvider) (P : Prost) (spec : ProofSpec) : Prop :=
  ∀ leafSpec leaf inner key value child image, spec.leafSpec = some leafSpec →
    ensureLeaf leaf leafSpec = .ok () → ensureInner inner spec = .ok () →
    key ≠ [] → value ≠ [] → child ≠ [] → LeafImage H P leaf key value image →
      image ≠ innerImage inner child

/-- No admissible inner prefix is shorter than the leaf prefix, if leaves exist at all. -/
def LeafPrefixFits (spec : ProofSpec) : Prop :=
  ∀ leafSpec s, spec.leafSpec = some leafSpec → spec.innerSpec = some s →
    Preparable (hashOpOf leafSpec.prehashKey) (lengthOpOf leafSpec.length) →
    Preparable (hashOpOf leafSpec.prehashValue) (lengthOpOf leafSpec.length) →
      ∀ length, AdmitsPrefix s length → leafSpec.prefix_.length ≤ length

theorem ensureLeaf_self (leafSpec : LeafOp) : ensureLeaf leafSpec leafSpec = .ok () := by
  simp [ensureLeaf, seq_eq_ok, hasPrefix_iff]

theorem prefix_of_ensureLeaf {leaf leafSpec : LeafOp} (h : ensureLeaf leaf leafSpec = .ok ()) :
    leafSpec.prehashKey = leaf.prehashKey ∧ leafSpec.prehashValue = leaf.prehashValue ∧
      leafSpec.length = leaf.length ∧ leafSpec.prefix_ <+: leaf.prefix_ := by
  simp only [ensureLeaf, seq_eq_ok, ensure_eq_ok, hasPrefix_iff] at h
  exact h.2

theorem LeafPrefixFits.separated {spec : ProofSpec} (fits : LeafPrefixFits spec) :
    Separated H P spec := by
  rintro leafSpec leaf inner key value child image hleaf hensure hinner - - - himage rfl
  obtain ⟨-, s, hs⟩ := specs_of_ensureInner hinner
  obtain ⟨-, hnot, hadmits, -⟩ := (ensureInner_iff hleaf hs).1 hinner
  obtain ⟨hkeyOp, hvalueOp, hlengthOp, hpre⟩ := prefix_of_ensureLeaf hensure
  obtain ⟨prekey, preval, hprekey, hpreval, himage⟩ := himage
  have hle := fits leafSpec s hleaf hs
    (by rw [hkeyOp, hlengthOp]; exact preparable_iff.2 ⟨key, prekey, hprekey⟩)
    (by rw [hvalueOp, hlengthOp]; exact preparable_iff.2 ⟨value, preval, hpreval⟩)
    inner.prefix_.length hadmits
  -- both prefixes begin the same string
  have hleafPre : leafSpec.prefix_ <+: innerImage inner child := by
    rw [himage, List.append_assoc]
    exact hpre.trans (List.prefix_append _ _)
  have hinnerPre : inner.prefix_ <+: innerImage inner child := by
    rw [innerImage, List.append_assoc]
    exact List.prefix_append _ _
  exact hnot (List.prefix_of_prefix_length_le hleafPre hinnerPre hle)

/-- A hash that is computed both for a leaf and for an inner node is a collision. -/
theorem LeafPrefixFits.applyLeaf_eq_applyInner {spec : ProofSpec} (fits : LeafPrefixFits spec)
    {leafSpec leaf : LeafOp} {inner : InnerOp} {key value child x : Bytes}
    (hleaf : spec.leafSpec = some leafSpec) (acceptedLeaf : ensureLeaf leaf leafSpec = .ok ())
    (acceptedInner : ensureInner inner spec = .ok ())
    (h : (applyLeaf H P leaf key value).out = .ok x)
    (h' : (applyInner H inner child).out = .ok x) :
    ∃ image image', image ≠ image' ∧ (doHash H (hashOpOf leaf.hash) image).out = .ok x ∧
      (doHash H (hashOpOf inner.hash) image').out = .ok x := by
  obtain ⟨image, himage, hx⟩ := applyLeaf_iff_leafImage.1 h
  obtain ⟨hchild, hx'⟩ := applyInner_iff_innerImage.1 h'
  obtain ⟨hkey, hvalue⟩ := himage.data_ne
  exact ⟨image, innerImage inner child, fits.separated leafSpec leaf inner key value child image
    hleaf acceptedLeaf acceptedInner hkey hvalue hchild himage, hx, hx'⟩

/-- Leaves and inner nodes are separated if and only if no admissible inner prefix is shorter than
the leaf prefix. -/
theorem separated_iff (spec : ProofSpec) : Separated H P spec ↔ LeafPrefixFits spec := by
  refine ⟨?_, LeafPrefixFits.separated⟩
  intro hsep leafSpec s hleaf hinner hkey hvalue length hadmits
  by_contra hshort
  rw [not_le] at hshort
  obtain ⟨key, prekey, hprekey⟩ := (preparable_iff (H := H) (P := P)).1 hkey
  obtain ⟨value, preval, hpreval⟩ := (preparable_iff (H := H) (P := P)).1 hvalue
  let image := leafSpec.prefix_ ++ prekey ++ preval
  -- the leaf itself, with a part of its prefix for a prefix and the rest for a child
  let inner : InnerOp := { hash := s.hash, prefix_ := image.take length, suffix := [] }
  have hlen : length < image.length := by
    simp only [image, List.length_append]
    omega
  have htake : (image.take length).length = length := List.length_take_of_le hlen.le
  refine hsep leafSpec leafSpec inner key value (image.drop length) image hleaf
    (ensureLeaf_self leafSpec) ?_ (prepareLeafData_isOk_iff.1 ⟨_, hprekey⟩).1
    (prepareLeafData_isOk_iff.1 ⟨_, hpreval⟩).1 ?_ ⟨prekey, preval, hprekey, hpreval, rfl⟩ ?_
  · rw [ensureInner_iff hleaf hinner]
    refine ⟨rfl, fun hpre => ?_, by rwa [htake], Nat.zero_mod _⟩
    have hle : leafSpec.prefix_.length ≤ (image.take length).length := hpre.length_le
    omega
  · rw [ne_eq, List.drop_eq_nil_iff]
    omega
  · simp [innerImage, inner]

/-- A leaf with a prefix of two bytes. -/
def longLeaf : LeafOp where
  hash := 1
  prehashKey := 0
  prehashValue := 0
  length := 0
  prefix_ := [0, 1]

/-- A spec with a leaf prefix of two bytes and an inner prefix of one. -/
def shortInnerSpec : ProofSpec where
  leafSpec := some longLeaf
  innerSpec := some tendermintInnerSpec
  minDepth := 0
  maxDepth := 0
  prehashKeyBeforeComparison := false

/-- An inner node with a child of 32 bytes is a leaf at the same time. -/
theorem not_separated_shortInnerSpec :
    let inner : InnerOp := { hash := 1, prefix_ := [0], suffix := [] }
    let key : Bytes := List.replicate 15 2
    let value : Bytes := List.replicate 16 3
    (ensureLeaf longLeaf longLeaf = .ok () ∧ ensureInner inner shortInnerSpec = .ok () ∧
      LeafImage .sha256Only .leb128 longLeaf key value
        (innerImage inner ([1] ++ key ++ value))) ∧
    ¬ Separated .sha256Only .leb128 shortInnerSpec := by
  intro inner key value
  have himage : LeafImage .sha256Only .leb128 longLeaf key value
      (innerImage inner ([1] ++ key ++ value)) := ⟨key, value, rfl, rfl, rfl⟩
  have hinner : ensureInner inner shortInnerSpec = .ok () := by decide
  refine ⟨⟨ensureLeaf_self longLeaf, hinner, himage⟩, fun hsep => ?_⟩
  exact hsep longLeaf longLeaf inner key value ([1] ++ key ++ value) _ rfl
    (ensureLeaf_self longLeaf) hinner (by decide) (by decide) (by decide) himage rfl

/-! ## Real slots -/

/-- An accepted inner op that fits a node with slots of the size of a child cuts one of the slots
out of it. -/
theorem ensureInner_cut_eq_slot {op : InnerOp} {spec : ProofSpec} {leafSpec : LeafOp}
    {s : InnerSpec} (hleaf : spec.leafSpec = some leafSpec) (hinner : spec.innerSpec = some s)
    (hmin : 0 ≤ s.minPrefixLength.toInt) {header child : Bytes} {slots : List Bytes}
    (hlo : s.minPrefixLength.toInt ≤ header.length) (hhi : header.length ≤ s.maxPrefixLength.toInt)
    (harity : slots.length = s.childOrder.length)
    (hslots : ∀ slot ∈ slots, (slot.length : ℤ) = s.childSize.toInt)
    (hchild : (child.length : ℤ) = s.childSize.toInt)
    (accepted : ensureInner op spec = .ok ())
    (himage : op.prefix_ ++ child ++ op.suffix = header ++ slots.flatten) :
    ∃ j, ∃ h : j < slots.length, child = slots[j] ∧
      op.prefix_ = header ++ (slots.take j).flatten ∧
      op.suffix = (slots.drop (j + 1)).flatten := by
  obtain ⟨-, -, hadmits, hsuffix⟩ := (ensureInner_iff hleaf hinner).1 accepted
  have hwidth := asUsize_of_nonneg hadmits.childSize.le
  have hlo' := asUsize_of_nonneg hmin
  have hmax := hadmits.maxPrefix
  have hminle := hadmits.min_le
  let w : Layout :=
    { arity := slots.length
      width := child.length
      lo := asUsize s.minPrefixLength.toInt
      hi := s.maxPrefixLength.toInt.toNat
      arity_pos := harity ▸ hadmits.branches
      width_pos := by have := hadmits.childSize; omega
      lo_le_hi := by omega
      hi_lt := by omega }
  let N : Node UInt8 w :=
    { header := header
      slot := fun q => slots[q]
      lo_le := by show asUsize _ ≤ _; omega
      le_hi := by show _ ≤ s.maxPrefixLength.toInt.toNat; omega
      length_slot := fun q => by
        have := hslots slots[q] (List.getElem_mem _)
        show slots[q].length = child.length
        omega }
  have hN : N.slots = slots := List.ofFn_getElem
  have hwidth' : asUsize s.childSize.toInt = child.length := by omega
  rw [hwidth'] at hsuffix
  obtain ⟨p, hc, hb, ha⟩ := N.cut_eq_slot (himage.trans (by rw [Node.content, hN])) rfl hminle
    (Nat.dvd_of_mod_eq_zero hsuffix)
  rw [Node.before, hN] at hb
  rw [Node.after, hN] at ha
  exact ⟨p, p.isLt, hc, hb, ha⟩

/-- The right child of a Tendermint node. -/
theorem rightChild_cut_eq_slot :
    let left : Bytes := List.replicate 32 7
    let right : Bytes := List.replicate 32 9
    let op : InnerOp := { hash := 1, prefix_ := [1] ++ left, suffix := [] }
    ∃ j, ∃ h : j < [left, right].length, right = [left, right][j] ∧
      op.prefix_ = [1] ++ ([left, right].take j).flatten ∧
      op.suffix = ([left, right].drop (j + 1)).flatten := by
  intro left right op
  have hleaf : tendermintSpec.leafSpec = some tendermintLeafSpec := rfl
  have hinner : tendermintSpec.innerSpec = some tendermintInnerSpec := rfl
  exact ensureInner_cut_eq_slot hleaf hinner (by decide) (by decide) (by decide) rfl (by decide)
    (by decide) (by decide) (by decide)

end Ics23.Rust
