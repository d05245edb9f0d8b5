import Ics23.Lib.Interning
import Ics23.Rust.Decompress

/-!
# Compression

The compressing functions of `compress.rs`, and that compression loses nothing.

`compress_batch` keeps two tables while it goes through the steps of all paths: the steps seen so
far, and a registry that maps the encoding of a step to its index.  Together they are an interning
table (`Tables.Holds`).  What a part of the compressor returns is read back from the table as it is
then, and from every later one (`Packs`).

* `decompress_compress`: decompression gives back what was compressed.
* `lookupInners_canonical`: what the table of a compressed batch holds.
-/

namespace Ics23.Rust

/-! ## The compressor -/

/-- The variables `lookup` and `registry` of `compress_batch`, the map given by its entries. -/
structure Tables where
  lookup : List InnerOp
  registry : List (Bytes × Int32)
  deriving DecidableEq, Repr

abbrev Compress := StateT Tables Result

-- The method `encode_to_vec` of the message.
variable (encode : InnerOp → Bytes)

/-- The closure of `compress_exist`, which looks a step up and enters it if it is new. -/
def entryOrInsert (x : InnerOp) : Compress Int32 := do
  let buf := encode x
  let tables ← get
  match tables.registry.lookup buf with
  | some idx => return idx
  | none =>
    -- the cast `as i32` keeps the low 32 bits
    let idx := Int32.ofNat tables.lookup.length
    set { lookup := tables.lookup ++ [x], registry := (buf, idx) :: tables.registry : Tables }
    return idx

def compressExist (exist : ExistenceProof) : Compress CompressedExistenceProof := do
  let path ← exist.path.mapM (entryOrInsert encode)
  return { key := exist.key, value := exist.value, leaf := exist.leaf, path }

/-- `as_ref().map(..).transpose()` on an optional side. -/
def compressSide : Option ExistenceProof → Compress (Option CompressedExistenceProof)
  | none => return none
  | some side => do return some (← compressExist encode side)

def compressEntry : BatchEntry → Compress CompressedBatchEntry
  | .exist ex => do return .exist (← compressExist encode ex)
  | .nonexist non => do
    let left ← compressSide encode non.left
    let right ← compressSide encode non.right
    return .nonexist { key := non.key, left, right }
  | .none => return .none

def compressBatch (proof : BatchProof) : Result CommitmentProof := do
  let (entries, tables) ← (proof.entries.mapM (compressEntry encode)).run ⟨[], []⟩
  return .compressed { entries, lookupInners := tables.lookup }

def compress (proof : CommitmentProof) : Result CommitmentProof :=
  match proof with
  | .batch batch => compressBatch encode batch
  | proof => .ok proof

/-! ## The steps of a batch -/

/-- The steps of an optional side. -/
def sideSteps : Option ExistenceProof → List InnerOp
  | none => []
  | some side => side.path

def BatchEntry.steps : BatchEntry → List InnerOp
  | .exist ex => ex.path
  | .nonexist non => sideSteps non.left ++ sideSteps non.right
  | .none => []

/-- The steps of all paths of a batch, in the order of the compressor. -/
def BatchProof.steps (batch : BatchProof) : List InnerOp := batch.entries.flatMap BatchEntry.steps

/-! ## The tables -/

variable {encode}

/-- The two tables hold the interning table `T`. -/
structure Tables.Holds (encode : InnerOp → Bytes) (t : Tables) (T : InternTable InnerOp) :
    Prop where
  lookup : t.lookup = T.entries
  registry : ∀ x, t.registry.lookup (encode x) =
    if x ∈ T.entries then some (Int32.ofNat (T.entries.idxOf x)) else none

theorem holds_empty : Tables.Holds encode ⟨[], []⟩ .empty where
  lookup := rfl
  registry _ := rfl

/-- Looking a step up is interning it. -/
theorem entryOrInsert_run (inj : Function.Injective encode) {t : Tables} {T : InternTable InnerOp}
    (h : t.Holds encode T) (x : InnerOp) :
    ∃ t', (entryOrInsert encode x).run t = .ok (Int32.ofNat (T.intern x).1, t') ∧
      t'.Holds encode (T.intern x).2 := by
  have hx := h.registry x
  by_cases hmem : x ∈ T.entries
  · rw [if_pos hmem] at hx
    rw [T.intern_of_mem x hmem]
    exact ⟨t, by simp [entryOrInsert, hx], h⟩
  · rw [if_neg hmem] at hx
    obtain ⟨hn, hT⟩ := T.entries_intern_of_not_mem x hmem
    refine ⟨⟨t.lookup ++ [x], (encode x, Int32.ofNat t.lookup.length) :: t.registry⟩,
      by simp [entryOrInsert, hx, hn, h.lookup], ?_, fun y => ?_⟩
    · rw [hT, h.lookup]
    · rw [List.lookup_cons, h.registry y, hT, h.lookup]
      by_cases hy : y = x
      · subst hy
        simp [List.idxOf_append, hmem]
      · have hne : (encode y == encode x) = false := by simpa using fun e => hy (inj e)
        simp only [hne, List.mem_append, List.mem_singleton, hy, or_false]
        split_ifs with hy'
        · rw [List.idxOf_append_of_mem hy']
        · rfl

/-! ## What the compressor packs -/

/-- The computation interns the steps `xs`, and what it returns is `Good` with the table it leaves
behind and with every later table whose places are the numbers of an `i32`. -/
def Packs {β : Type} (encode : InnerOp → Bytes) (m : Compress β) (xs : List InnerOp)
    (Good : β → List InnerOp → Prop) : Prop :=
  ∀ t T, t.Holds encode T → ∃ b t', m.run t = .ok (b, t') ∧ t'.Holds encode (T.internAll xs).2 ∧
    ∀ table, (T.internAll xs).2.entries <+: table → table.length ≤ 2 ^ 31 → Good b table

namespace Packs

variable {β γ : Type} {m : Compress β} {xs ys : List InnerOp} {Good : β → List InnerOp → Prop}

theorem pure {b : β} (h : ∀ table, Good b table) : Packs encode (Pure.pure b) [] Good :=
  fun t _ ht => ⟨b, t, rfl, ht, fun table _ _ => h table⟩

/-- What is good after the first computation may be used after the second. -/
theorem bind {f : β → Compress γ} {Good' : γ → List InnerOp → Prop} (hm : Packs encode m xs Good)
    (hf : ∀ b, Packs encode (f b) ys fun c table => Good b table → Good' c table) :
    Packs encode (m >>= f) (xs ++ ys) Good' := by
  intro t T ht
  obtain ⟨b, t₁, hrun, ht₁, hgood⟩ := hm t T ht
  obtain ⟨c, t₂, hrun', ht₂, hgood'⟩ := hf b t₁ _ ht₁
  rw [T.internAll_append xs ys]
  refine ⟨c, t₂, by rw [StateT.run_bind, hrun]; exact hrun', ht₂, fun table hle hlen => ?_⟩
  exact hgood' table hle hlen (hgood table ((InternTable.prefix_internAll _ ys).trans hle) hlen)

/-- A last step that only puts together what is there. -/
theorem map {f : β → γ} {Good' : γ → List InnerOp → Prop} (hm : Packs encode m xs Good)
    (hf : ∀ b table, Good b table → Good' (f b) table) :
    Packs encode (m >>= fun b => Pure.pure (f b)) xs Good' := by
  have h : Packs encode (m >>= fun b => Pure.pure (f b)) (xs ++ []) Good' :=
    hm.bind fun b => pure (hf b)
  rwa [List.append_nil] at h

end Packs

theorem packs_entryOrInsert (inj : Function.Injective encode) (x : InnerOp) :
    Packs encode (entryOrInsert encode x) [x]
      fun idx table => table[asUsize idx.toInt]? = some x ∧ InTable table idx := by
  intro t T ht
  obtain ⟨t', hrun, ht'⟩ := entryOrInsert_run inj ht x
  refine ⟨_, t', hrun, ht', fun table hle hlen => ?_⟩
  have hx := T.getElem?_of_prefix x hle
  have hlt := (List.getElem?_eq_some_iff.1 hx).1
  constructor
  · show table[asUsize (Int32.ofNat (T.intern x).1).toInt]? = some x
    rw [asUsize_ofNat (by omega), hx]
  · show 0 ≤ (Int32.ofNat (T.intern x).1).toInt ∧ (Int32.ofNat (T.intern x).1).toInt < _
    rw [Int32.toInt_ofNat_of_lt (by omega)]
    omega

theorem packs_path (inj : Function.Injective encode) (path : List InnerOp) :
    Packs encode (path.mapM (entryOrInsert encode)) path fun idxs table =>
      idxs.mapM (fun x => table[asUsize x.toInt]?) = some path ∧ ∀ x ∈ idxs, InTable table x := by
  induction path with
  | nil => exact .pure fun _ => ⟨rfl, List.forall_mem_nil _⟩
  | cons x path ih =>
    rw [List.mapM_cons, ← List.singleton_append]
    refine (packs_entryOrInsert inj x).bind fun idx => ?_
    refine ih.map fun idxs table hidxs hidx => ⟨?_, List.forall_mem_cons.2 ⟨hidx.2, hidxs.2⟩⟩
    rw [List.mapM_cons, hidx.1, hidxs.1]
    rfl

theorem packs_exist (inj : Function.Injective encode) (ex : ExistenceProof) :
    Packs encode (compressExist encode ex) ex.path fun cex table =>
      decompressExist cex table = ex ∧ ∀ x ∈ cex.path, InTable table x := by
  refine (packs_path inj ex.path).map fun path table h => ⟨?_, h.2⟩
  simp only [decompressExist, h.1, Option.getD_some]

theorem packs_side (inj : Function.Injective encode) (side : Option ExistenceProof) :
    Packs encode (compressSide encode side) (sideSteps side) fun cside table =>
      cside.map (decompressExist · table) = side ∧ ∀ x ∈ sideIndexes cside, InTable table x := by
  cases side with
  | none => exact .pure fun _ => ⟨rfl, List.forall_mem_nil _⟩
  | some ex =>
    refine (packs_exist inj ex).map fun cex table h => ⟨?_, h.2⟩
    rw [Option.map_some, h.1]

theorem packs_entry (inj : Function.Injective encode) (entry : BatchEntry) :
    Packs encode (compressEntry encode entry) entry.steps fun centry table =>
      decompressEntry table centry = entry ∧ ∀ x ∈ centry.indexes, InTable table x := by
  cases entry with
  | exist ex =>
    refine (packs_exist inj ex).map fun cex table h => ⟨?_, h.2⟩
    rw [decompressEntry, h.1]
  | nonexist non =>
    refine (packs_side inj non.left).bind fun left => ?_
    refine (packs_side inj non.right).map fun right table hright hleft => ⟨?_, ?_⟩
    · rw [decompressEntry, hleft.1, hright.1]
    · exact List.forall_mem_append.2 ⟨hleft.2, hright.2⟩
  | none => exact .pure fun _ => ⟨rfl, List.forall_mem_nil _⟩

theorem packs_entries (inj : Function.Injective encode) (entries : List BatchEntry) :
    Packs encode (entries.mapM (compressEntry encode)) (entries.flatMap BatchEntry.steps)
      fun centries table => centries.map (decompressEntry table) = entries ∧
        ∀ x ∈ centries.flatMap CompressedBatchEntry.indexes, InTable table x := by
  induction entries with
  | nil => exact .pure fun _ => ⟨rfl, List.forall_mem_nil _⟩
  | cons entry entries ih =>
    rw [List.mapM_cons, List.flatMap_cons]
    refine (packs_entry inj entry).bind fun centry => ?_
    refine ih.map fun centries table hentries hentry => ⟨?_, ?_⟩
    · rw [List.map_cons, hentry.1, hentries.1]
    · rw [List.flatMap_cons]
      exact List.forall_mem_append.2 ⟨hentry.2, hentries.2⟩

/-- A batch is compressed to a proof with the steps of the batch for its table, which is
decompressed to the batch and names no step outside the table. -/
theorem compressBatch_spec (inj : Function.Injective encode) (batch : BatchProof)
    (small : batch.steps.toFinset.card ≤ 2 ^ 31) :
    ∃ c, compressBatch encode batch = .ok (.compressed c) ∧
      c.lookupInners = (InternTable.empty.internAll batch.steps).2.entries ∧
      decompressBatch c = .ok (.batch batch) ∧ ∀ x ∈ c.indexes, InTable c.lookupInners x := by
  obtain ⟨centries, t, hrun, ht, hgood⟩ := packs_entries inj batch.entries _ _ holds_empty
  have hlen := (InternTable.length_internAll_le batch.steps).trans small
  obtain ⟨hentries, hindexes⟩ := hgood _ List.prefix_rfl hlen
  refine ⟨⟨centries, t.lookup⟩, ?_, ht.lookup, ?_, ?_⟩
  · rw [compressBatch, hrun]
    simp only [Outcome.ok_bind]
    rfl
  · rw [decompressBatch, ht.lookup, hentries]
  · rw [ht.lookup]
    exact hindexes

/-! ## The encoding of a step -/

/-- An integer field of a message, left out if it has the default value. -/
def varintField (tag : UInt8) (n : ℕ) : Bytes := if n = 0 then [] else tag :: Leb128.encode n

/-- A field with bytes, left out if it is empty. -/
def bytesField (tag : UInt8) (b : Bytes) : Bytes :=
  if b = [] then [] else tag :: (Leb128.encode b.length ++ b)

/-- The protobuf encoding of a step: its fields have the numbers 1, 2 and 3. -/
def encodeInnerOp (x : InnerOp) : Bytes :=
  varintField 0x08 (asUsize x.hash.toInt) ++
    (bytesField 0x12 x.prefix_ ++ bytesField 0x1a x.suffix)

theorem varintField_append_inj {tag : UInt8} {m n : ℕ} {s t : Bytes} (hs : s.head? ≠ some tag)
    (ht : t.head? ≠ some tag) (h : varintField tag m ++ s = varintField tag n ++ t) :
    m = n ∧ s = t := by
  unfold varintField at h
  split_ifs at h with hm hn hn
  · exact ⟨hm.trans hn.symm, h⟩
  · rw [List.nil_append] at h
    exact absurd (h ▸ rfl) hs
  · rw [List.nil_append] at h
    exact absurd (h ▸ rfl) ht
  · rw [List.cons_append, List.cons_append, List.cons.injEq] at h
    exact Leb128.encode_append_inj h.2

theorem bytesField_append_inj {tag : UInt8} {b c s t : Bytes} (hs : s.head? ≠ some tag)
    (ht : t.head? ≠ some tag) (h : bytesField tag b ++ s = bytesField tag c ++ t) :
    b = c ∧ s = t := by
  unfold bytesField at h
  split_ifs at h with hb hc hc
  · exact ⟨hb.trans hc.symm, h⟩
  · rw [List.nil_append] at h
    exact absurd (h ▸ rfl) hs
  · rw [List.nil_append] at h
    exact absurd (h ▸ rfl) ht
  · simp only [List.cons_append, List.append_assoc, List.cons.injEq, true_and] at h
    obtain ⟨hlen, h⟩ := Leb128.encode_append_inj h
    exact List.append_inj h hlen

theorem bytesField_inj {tag : UInt8} {b c : Bytes} (h : bytesField tag b = bytesField tag c) :
    b = c := by
  have h' : bytesField tag b ++ [] = bytesField tag c ++ [] := by rw [h]
  exact (bytesField_append_inj (by simp) (by simp) h').1

theorem head?_bytesField {tag tag' : UInt8} (h : tag' ≠ tag) (b : Bytes) :
    (bytesField tag' b).head? ≠ some tag := by
  unfold bytesField
  split_ifs <;> simp [h]

theorem asUsize_toInt_inj {a b : Int32} (h : asUsize a.toInt = asUsize b.toInt) : a = b := by
  unfold asUsize at h
  have := a.toInt_lt
  have := a.le_toInt
  have := b.toInt_lt
  have := b.le_toInt
  exact Int32.toInt_inj.1 (by omega)

theorem encodeInnerOp_injective : Function.Injective encodeInnerOp := by
  rintro ⟨hash, p, s⟩ ⟨hash', p', s'⟩ h
  have prefixHead (a b : Bytes) : (bytesField 0x12 a ++ bytesField 0x1a b).head? ≠ some 0x08 := by
    rw [List.head?_append, ne_eq, Option.or_eq_some_iff]
    rintro (h | ⟨-, h⟩)
    · exact head?_bytesField (by decide) a h
    · exact head?_bytesField (by decide) b h
  obtain ⟨hhash, h⟩ := varintField_append_inj (prefixHead _ _) (prefixHead _ _) h
  obtain ⟨hp, h⟩ := bytesField_append_inj (head?_bytesField (by decide) _)
    (head?_bytesField (by decide) _) h
  rw [InnerOp.mk.injEq]
  exact ⟨asUsize_toInt_inj hhash, hp, bytesField_inj h⟩

/-! ## Nothing is lost -/

theorem decompress_of_raw {proof : CommitmentProof} (raw : isCompressed proof = false) :
    decompress proof = .ok proof := by
  cases proof with
  | compressed c => contradiction
  | _ => rfl

/-- A proof that is not compressed is decompressed from its compressed form, on which all
verification functions do the same: they return the same, and hash the same strings. -/
theorem decompress_compress (inj : Function.Injective encode) (proof : CommitmentProof)
    (raw : isCompressed proof = false)
    (small : ∀ batch, proof = .batch batch → batch.steps.toFinset.card ≤ 2 ^ 31) :
    ∃ compressed, compress encode proof = .ok compressed ∧ decompress compressed = .ok proof ∧
      ∀ (H : HostFunctionsProvider) (P : Prost) (spec : ProofSpec) (root : Bytes),
        (∀ key value, verifyMembership H P compressed spec root key value =
          verifyMembership H P proof spec root key value) ∧
        (∀ key, verifyNonMembership H P compressed spec root key =
          verifyNonMembership H P proof spec root key) ∧
        (∀ items, verifyBatchMembership H P compressed spec root items =
          verifyBatchMembership H P proof spec root items) ∧
        (∀ keys, verifyBatchNonMembership H P compressed spec root keys =
          verifyBatchNonMembership H P proof spec root keys) := by
  have hround : ∃ compressed, compress encode proof = .ok compressed ∧
      decompress compressed = .ok proof := by
    cases proof with
    | batch batch =>
      obtain ⟨c, hc, -, hd, -⟩ := compressBatch_spec inj batch (small batch rfl)
      exact ⟨.compressed c, hc, hd⟩
    | compressed c => contradiction
    | exist ex => exact ⟨_, rfl, rfl⟩
    | nonexist non => exact ⟨_, rfl, rfl⟩
    | none => exact ⟨_, rfl, rfl⟩
  obtain ⟨compressed, hc, hd⟩ := hround
  have hsame (verify : CommitmentProof → Hashing Bool) :
      withDecompressed compressed verify = withDecompressed proof verify := by
    rw [withDecompressed_eq hd, withDecompressed_eq (decompress_of_raw raw)]
  exact ⟨compressed, hc, hd, fun H P spec root =>
    ⟨fun _ _ => hsame _, fun _ => hsame _, fun _ => hsame _, fun _ => hsame _⟩⟩

/-- A batch with an empty entry and a step that both proofs share. -/
def sharedBatch : BatchProof where
  entries :=
    let step : InnerOp := { hash := 1, prefix_ := [1], suffix := [2] }
    let ex : ExistenceProof :=
      { key := [3], value := [4], leaf := some iavlLeafSpec, path := [step, step] }
    [.exist ex, .none, .nonexist { key := [5], left := some ex, right := none }]

theorem sharedBatch_decompress_compress :
    ∃ compressed, compress encodeInnerOp (.batch sharedBatch) = .ok compressed ∧
      decompress compressed = .ok (.batch sharedBatch) := by
  obtain ⟨compressed, hc, hd, -⟩ := decompress_compress encodeInnerOp_injective
    (.batch sharedBatch) rfl (by rintro _ ⟨rfl⟩; decide)
  exact ⟨compressed, hc, hd⟩

/-! ## The table -/

/-- The table of a compressed batch holds each step of the batch once and nothing else, in the order
in which the steps first occur; and every index is that of a step of the table. -/
theorem lookupInners_canonical (inj : Function.Injective encode) (batch : BatchProof)
    (small : batch.steps.toFinset.card ≤ 2 ^ 31) :
    ∃ c, compressBatch encode batch = .ok (.compressed c) ∧
      (∀ x, x ∈ c.lookupInners ↔ x ∈ batch.steps) ∧ c.lookupInners.Nodup ∧
      (c.lookupInners.Pairwise fun x y => batch.steps.idxOf x < batch.steps.idxOf y) ∧
      ∀ x ∈ c.indexes, InTable c.lookupInners x := by
  obtain ⟨c, hc, htable, -, hindexes⟩ := compressBatch_spec inj batch small
  refine ⟨c, hc, fun x => ?_, ?_, ?_, hindexes⟩
  · rw [htable, InternTable.mem_internAll]
    exact or_iff_right List.not_mem_nil
  · rw [htable]
    exact (InternTable.empty.internAll batch.steps).2.nodup
  · rw [htable]
    exact InternTable.pairwise_internAll batch.steps

theorem sharedBatch_lookupInners :
    ∃ c, compressBatch encodeInnerOp sharedBatch = .ok (.compressed c) ∧
      c.lookupInners.Nodup ∧ ∀ x ∈ c.indexes, InTable c.lookupInners x := by
  obtain ⟨c, hc, -, hnodup, -, hindexes⟩ := lookupInners_canonical encodeInnerOp_injective
    sharedBatch (by decide)
  exact ⟨c, hc, hnodup, hindexes⟩

end Ics23.Rust
