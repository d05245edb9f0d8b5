import Ics23.Rust.Iavl

/-!
# IAVL headers delimit themselves

Under the IAVL spec every leaf and inner prefix begins with three varints, and the crate also takes
varints that are longer than they need to be.  Still no string begins with two headers: two accepted
prefixes that begin the same string have the same header (`iavl_headers_agree`).
-/

namespace Ics23.Rust

variable {P : Prost}

variable (P) in
/-- The numbers that `ensure_iavl_prefix` reads: height, size and version. -/
def readNumbers : Reader UInt8 (ℤ × ℤ × ℤ) :=
  Reader.bind (readVarint P) fun height => Reader.bind (readVarint P) fun size =>
    Reader.map (fun version => (height, size, version)) (readVarint P)

theorem readVarint_selfDelimiting : Reader.SelfDelimiting (readVarint P) := by
  have h : readVarint P = Leb128.decodeSigned := funext readVarint_eq
  rw [h]
  exact Leb128.decodeSigned_selfDelimiting

theorem readNumbers_selfDelimiting : (readNumbers P).SelfDelimiting :=
  readVarint_selfDelimiting.bind fun _ => readVarint_selfDelimiting.bind fun _ =>
    readVarint_selfDelimiting.map

theorem readNumbers_eq_some {b rest : Bytes} {x y z : ℤ} :
    readNumbers P b = some ((x, y, z), rest) ↔ readHeader b = some (x, y, z, rest) := by
  simp only [readNumbers, Reader.bind_eq_some, Reader.map_eq_some, readVarint_eq,
    readHeader_eq_some, Prod.mk.injEq]
  constructor
  · rintro ⟨_, b', hx, _, b'', hy, _, hz, rfl, rfl, rfl⟩
    exact ⟨b', b'', hx, hy, hz⟩
  · rintro ⟨b', b'', hx, hy, hz⟩
    exact ⟨x, b', hx, y, b'', hy, z, hz, rfl, rfl, rfl⟩

variable (P) in
/-- The prefix is accepted for a leaf or, in some layer, for an inner op. -/
def PrefixAccepted (p : Bytes) : Prop :=
  ensureLeafPrefix P p iavlSpec = .ok () ∨
    ∃ layer hash, ensureInnerPrefix P p iavlSpec layer hash = .ok ()

theorem PrefixAccepted.readNumbers {p : Bytes} (h : PrefixAccepted P p) :
    ∃ numbers rest, readNumbers P p = some (numbers, rest) := by
  have hread {minHeight : ℤ} {n : ℕ} (hp : IavlPrefix minHeight p n) :
      ∃ numbers rest, Rust.readNumbers P p = some (numbers, rest) := by
    obtain ⟨x, y, z, rest, hx, -⟩ := hp
    exact ⟨(x, y, z), rest, readNumbers_eq_some.2 hx⟩
  rcases h with h | ⟨layer, hash, h⟩
  · exact hread (iavl_ensureLeafPrefix_eq_ok.1 h)
  · exact (iavl_ensureInnerPrefix_iff.1 h).1.elim hread hread

/-- Nothing is left after the numbers of a leaf prefix. -/
theorem rest_eq_nil_of_ensureLeafPrefix {p rest : Bytes} {numbers : ℤ × ℤ × ℤ}
    (h : ensureLeafPrefix P p iavlSpec = .ok ()) (hread : readNumbers P p = some (numbers, rest)) :
    rest = [] := by
  obtain ⟨x, y, z, rest', hx, -, -, -, hlen⟩ := iavl_ensureLeafPrefix_eq_ok.1 h
  rw [readNumbers_eq_some.2 hx, Option.some.injEq, Prod.mk.injEq] at hread
  rw [← hread.2]
  exact List.eq_nil_of_length_eq_zero hlen

/-- A prefix that begins with the prefix of the leaf spec has height zero. -/
theorem height_eq_zero {p rest : Bytes} {numbers : ℤ × ℤ × ℤ}
    (h : iavlLeafSpec.prefix_ <+: p) (hread : readNumbers P p = some (numbers, rest)) :
    numbers.1 = 0 := by
  obtain ⟨t, rfl⟩ := h
  obtain ⟨x, y, z⟩ := numbers
  obtain ⟨b', b'', hx, -⟩ := readHeader_eq_some.1 (readNumbers_eq_some.1 hread)
  have hzero : Leb128.decodeSigned (iavlLeafSpec.prefix_ ++ t) = some (0, t) := rfl
  rw [hzero, Option.some.injEq, Prod.mk.injEq] at hx
  exact hx.1.symm

/-- The height of an accepted inner prefix is no less than its layer. -/
theorem layer_le_height {p rest : Bytes} {numbers : ℤ × ℤ × ℤ} {layer : ℤ} {hash : Int32}
    (h : ensureInnerPrefix P p iavlSpec layer hash = .ok ())
    (hread : readNumbers P p = some (numbers, rest)) : layer ≤ numbers.1 := by
  have hle {n : ℕ} (hp : IavlPrefix layer p n) : layer ≤ numbers.1 := by
    obtain ⟨x, y, z, rest', hx, hlayer, -⟩ := hp
    rw [readNumbers_eq_some.2 hx, Option.some.injEq, Prod.mk.injEq] at hread
    rwa [← hread.1]
  exact (iavl_ensureInnerPrefix_iff.1 h).1.elim hle hle

/-- Two accepted prefixes that begin the same string have the same header, in the same bytes.  So
two leaf prefixes are equal, and a leaf prefix of the leaf spec begins no string that also begins
with an inner prefix. -/
theorem iavl_headers_agree {p q s t : Bytes} (hp : PrefixAccepted P p) (hq : PrefixAccepted P q)
    (same : p ++ s = q ++ t) :
    (∃ numbers header restp restq,
      readNumbers P p = some (numbers, restp) ∧ readNumbers P q = some (numbers, restq) ∧
        p = header ++ restp ∧ q = header ++ restq) ∧
    (ensureLeafPrefix P p iavlSpec = .ok () → ensureLeafPrefix P q iavlSpec = .ok () → p = q) ∧
    (ensureLeafPrefix P p iavlSpec = .ok () → iavlLeafSpec.prefix_ <+: p →
      ∀ (layer : ℤ) (hash : Int32), 1 ≤ layer →
        ensureInnerPrefix P q iavlSpec layer hash ≠ .ok ()) := by
  obtain ⟨numbers, restp, hreadp⟩ := hp.readNumbers
  obtain ⟨_, restq, hreadq⟩ := hq.readNumbers
  obtain ⟨rfl, header, hp', hq'⟩ := readNumbers_selfDelimiting.agree hreadp hreadq same
  refine ⟨⟨_, header, restp, restq, hreadp, hreadq, hp', hq'⟩, fun hleafp hleafq => ?_,
    fun _ hhead layer hash hlayer hinner => ?_⟩
  · rw [hp', hq', rest_eq_nil_of_ensureLeafPrefix hleafp hreadp,
      rest_eq_nil_of_ensureLeafPrefix hleafq hreadq]
  · have hzero := height_eq_zero hhead hreadp
    have hle := layer_le_height hinner hreadq
    omega

/-- The prefixes before a left child and before a right child that follows it. -/
theorem leftAndRight_headers_agree :
    let p : Bytes := [2, 4, 6, 32]
    let q : Bytes := p ++ List.replicate 33 7
    ∃ numbers header restp restq,
      readNumbers .leb128 p = some (numbers, restp) ∧
        readNumbers .leb128 q = some (numbers, restq) ∧
          p = header ++ restp ∧ q = header ++ restq := by
  intro p q
  have hp : PrefixAccepted .leb128 p := .inr ⟨1, 1, by decide⟩
  have hq : PrefixAccepted .leb128 q := .inr ⟨1, 1, by decide⟩
  exact (iavl_headers_agree hp hq (List.append_nil q).symm).1

end Ics23.Rust
