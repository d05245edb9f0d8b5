import Ics23.Rust.Api

/-!
# Indexes outside the table

A compressed proof names the steps of its paths by indexes into its table.  `decompress_exist`
replaces a path with an index outside the table by the empty path, so that nothing is ever refused;
`refusesMalformed_iff` says which compressed proofs are decompressed as they should be.
-/

namespace Ics23.Rust

/-! ## Indexes and paths -/

/-- The number is the index of a step of the table. -/
def InTable (lookup : List InnerOp) (x : Int32) : Prop :=
  0 ≤ x.toInt ∧ x.toInt < lookup.length

instance (lookup : List InnerOp) (x : Int32) : Decidable (InTable lookup x) :=
  inferInstanceAs (Decidable (_ ∧ _))

/-- The indexes in an optional side. -/
def sideIndexes : Option CompressedExistenceProof → List Int32
  | none => []
  | some side => side.path

def CompressedBatchEntry.indexes : CompressedBatchEntry → List Int32
  | .exist ex => ex.path
  | .nonexist non => sideIndexes non.left ++ sideIndexes non.right
  | .none => []

/-- The indexes in all paths of a compressed batch. -/
def CompressedBatchProof.indexes (c : CompressedBatchProof) : List Int32 :=
  c.entries.flatMap CompressedBatchEntry.indexes

/-- The path has the length of the compressed path, and the steps that its indexes name. -/
def PathRead (lookup : List InnerOp) (cpath : List Int32) (path : List InnerOp) : Prop :=
  List.Forall₂ (fun (x : Int32) op => ∃ i : ℕ, x.toInt = i ∧ lookup[i]? = some op) cpath path

/-- All paths of an entry are read off the compressed entry. -/
inductive EntryRead (lookup : List InnerOp) : CompressedBatchEntry → BatchEntry → Prop
  | exist {cex : CompressedExistenceProof} {ex : ExistenceProof}
      (path : PathRead lookup cex.path ex.path) : EntryRead lookup (.exist cex) (.exist ex)
  | nonexist {cnon : CompressedNonExistenceProof} {non : NonExistenceProof}
      (left : Option.Rel (fun c p => PathRead lookup c.path p.path) cnon.left non.left)
      (right : Option.Rel (fun c p => PathRead lookup c.path p.path) cnon.right non.right) :
      EntryRead lookup (.nonexist cnon) (.nonexist non)
  | none : EntryRead lookup .none .none

/-- What decompression owes a compressed batch: it fails if there is an index outside the table, and
if it succeeds then all paths are read off the compressed ones. -/
structure RefusesMalformed (c : CompressedBatchProof) : Prop where
  refuses : ∀ x ∈ c.indexes, ¬ InTable c.lookupInners x →
    ∃ msg, decompress (.compressed c) = .err msg
  reads : ∀ proof, decompress (.compressed c) = .ok proof →
    ∃ batch, proof = .batch batch ∧
      List.Forall₂ (EntryRead c.lookupInners) c.entries batch.entries

/-! ## Reading paths -/

variable {lookup : List InnerOp}

/-- Indexes inside the table are looked up. -/
theorem pathRead_of_inTable {cpath : List Int32} (h : ∀ x ∈ cpath, InTable lookup x) :
    ∃ path, cpath.mapM (fun x => lookup[asUsize x.toInt]?) = some path ∧
      PathRead lookup cpath path := by
  induction cpath with
  | nil => exact ⟨[], rfl, .nil⟩
  | cons x cpath ih =>
    obtain ⟨path, hpath, hread⟩ := ih fun y hy => h y (List.mem_cons_of_mem _ hy)
    obtain ⟨h0, hlt⟩ := h x List.mem_cons_self
    obtain ⟨i, hi⟩ := Int.eq_ofNat_of_zero_le h0
    have hi' : i < lookup.length := by omega
    have hcast : asUsize x.toInt = i := by
      have := asUsize_of_nonneg h0
      omega
    refine ⟨lookup[i] :: path, ?_, .cons ⟨i, hi, List.getElem?_eq_getElem hi'⟩ hread⟩
    rw [List.mapM_cons, hcast, List.getElem?_eq_getElem hi', hpath]
    rfl

theorem pathRead_decompressExist {ex : CompressedExistenceProof}
    (h : ∀ x ∈ ex.path, InTable lookup x) :
    PathRead lookup ex.path (decompressExist ex lookup).path := by
  obtain ⟨path, hpath, hread⟩ := pathRead_of_inTable h
  simp only [decompressExist, hpath, Option.getD_some]
  exact hread

theorem pathRead_side {side : Option CompressedExistenceProof}
    (h : ∀ x ∈ sideIndexes side, InTable lookup x) :
    Option.Rel (fun c p => PathRead lookup c.path p.path) side
      (side.map (decompressExist · lookup)) := by
  cases side with
  | none => exact .none
  | some ex => exact .some (pathRead_decompressExist h)

theorem entryRead_decompressEntry {entry : CompressedBatchEntry}
    (h : ∀ x ∈ entry.indexes, InTable lookup x) :
    EntryRead lookup entry (decompressEntry lookup entry) := by
  cases entry with
  | exist ex => exact .exist (pathRead_decompressExist h)
  | nonexist non =>
    exact .nonexist (pathRead_side fun x hx => h x (List.mem_append_left _ hx))
      (pathRead_side fun x hx => h x (List.mem_append_right _ hx))
  | none => exact .none

/-- A compressed batch is decompressed as it should be if and only if every index in it is the index
of a step of its table. -/
theorem refusesMalformed_iff (c : CompressedBatchProof) :
    RefusesMalformed c ↔ ∀ x ∈ c.indexes, InTable c.lookupInners x := by
  constructor
  · intro h x hx
    by_contra hout
    obtain ⟨msg, hmsg⟩ := h.refuses x hx hout
    -- decompression never fails
    have hok : decompress (.compressed c) = .ok (.batch ⟨c.entries.map _⟩) := rfl
    rw [hok] at hmsg
    contradiction
  · intro h
    refine ⟨fun x hx hout => absurd (h x hx) hout, ?_⟩
    rintro proof ⟨rfl⟩
    refine ⟨_, rfl, ?_⟩
    rw [List.forall₂_map_right_iff, List.forall₂_same]
    intro entry hentry
    exact entryRead_decompressEntry fun x hx => h x (List.mem_flatMap.2 ⟨entry, hentry, hx⟩)

/-- A proof with one entry, whose path names a step although the table is empty. -/
def danglingProof : CompressedBatchProof where
  entries := [.exist { key := [1], value := [2], leaf := some iavlLeafSpec, path := [0] }]
  lookupInners := []

/-- It is accepted, with the path cut to nothing. -/
theorem not_refusesMalformed_danglingProof :
    decompress (.compressed danglingProof) = .ok (.batch { entries :=
      [.exist { key := [1], value := [2], leaf := some iavlLeafSpec, path := [] }] }) ∧
    ¬ RefusesMalformed danglingProof := by
  refine ⟨rfl, fun h => ?_⟩
  obtain ⟨msg, hmsg⟩ := h.refuses 0 (by decide) (by decide)
  contradiction

end Ics23.Rust
