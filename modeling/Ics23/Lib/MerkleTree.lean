import Ics23.Lib.BinTree
import Ics23.Lib.Computation
import Ics23.Lib.Leb128

/-!
# Merkle trees and climbs

A `NodeFormat` says which byte string is hashed at every node of a binary tree: a leaf has its own
image, an inner node the image `before ++ left digest ++ between ++ right digest`.  A proof of a
leaf is climbed from below: a `Cut` is an inner image with the digest of one child cut out, and
`climb` fills in one cut after the other and hashes.

* `climb_cuts`: the honest cuts of a leaf climb to the root.
* `Discipline.descend`: if a verifier accepts only cuts that fit the format, then every climb that
  reaches the root of a tree is the honest climb of one of its leaves, unless two messages collide
  or a message hashes to an empty subtree's digest.
* `climb_left_cancel`, `eq_of_climb_tail`, `fill_eq_of_diverge`: two climbs to one common root,
  whatever that root is, agree from the root down for as long as their cuts do.
-/

namespace Ics23

variable {E N L : Type}

/-- An inner image with the digest of one child cut out. -/
abbrev Cut := Bytes × Bytes

/-- Put a child back. -/
def Cut.fill (c : Cut) (child : Bytes) : Bytes := c.1 ++ child ++ c.2

theorem Cut.fill_inj {c : Cut} {x y : Bytes} (h : c.fill x = c.fill y) : x = y :=
  List.append_cancel_left (List.append_cancel_right h)

/-! ## Where two lists part -/

section Diverge

variable {α : Type} [DecidableEq α]

/-- The first entries in which two lists differ, and what follows them; `none` when one list runs
out before that. -/
def diverge : List α → List α → Option (α × α × List α × List α)
  | x :: l, y :: r => if x = y then diverge l r else some (x, y, l, r)
  | _, _ => none

theorem diverge_eq_some {l r l' r' : List α} {x y : α} (h : diverge l r = some (x, y, l', r')) :
    ∃ t, l = t ++ x :: l' ∧ r = t ++ y :: r' ∧ x ≠ y := by
  induction l generalizing r with
  | nil => simp [diverge] at h
  | cons a l ih =>
    cases r with
    | nil => simp [diverge] at h
    | cons b r =>
      unfold diverge at h
      split_ifs at h with hab
      · obtain ⟨t, rfl, rfl, hne⟩ := ih h
        exact ⟨a :: t, rfl, by rw [hab]; rfl, hne⟩
      · simp only [Option.some.injEq, Prod.mk.injEq] at h
        obtain ⟨rfl, rfl, rfl, rfl⟩ := h
        exact ⟨[], rfl, rfl, hab⟩

theorem diverge_append {x y : α} (h : x ≠ y) (t l r : List α) :
    diverge (t ++ x :: l) (t ++ y :: r) = some (x, y, l, r) := by
  induction t with
  | nil => exact if_neg h
  | cons a t ih => simpa [diverge] using ih

theorem diverge_eq_none_iff {l r : List α} : diverge l r = none ↔ l <+: r ∨ r <+: l := by
  induction l generalizing r with
  | nil => simp [diverge]
  | cons a l ih =>
    cases r with
    | nil => simp [diverge]
    | cons b r =>
      unfold diverge
      split_ifs with hab
      · simp [hab, ih]
      · simp [List.cons_prefix_cons, hab, Ne.symm hab]

/-- Take what two stacks share off both of them: the first entries that differ, and what is left.
Panic with `p` if a stack runs out before that. -/
def popCommon {π ε : Type} (same : α → α → Bool) (p : π) :
    List α → List α → Outcome π ε (α × α × List α × List α)
  | x :: l, y :: r => if same x y then popCommon same p l r else .ok (x, y, l, r)
  | _, _ => .panic p

omit [DecidableEq α] in
theorem popCommon_spec {π ε β : Type} [DecidableEq β] (same : α → α → Bool) {f : α → β}
    (h : ∀ x y, same x y ↔ f x = f y) (p : π) (l r : List α) :
    (∃ x y l' r', popCommon (ε := ε) same p l r = .ok (x, y, l', r') ∧
      diverge (l.map f) (r.map f) = some (f x, f y, l'.map f, r'.map f)) ∨
    (popCommon (ε := ε) same p l r = .panic p ∧ diverge (l.map f) (r.map f) = none) := by
  induction l generalizing r with
  | nil => exact .inr ⟨rfl, rfl⟩
  | cons x l ih =>
    cases r with
    | nil => exact .inr ⟨rfl, rfl⟩
    | cons y r =>
      rw [popCommon, List.map_cons, List.map_cons, diverge]
      by_cases hxy : same x y
      · rw [if_pos hxy, if_pos ((h x y).1 hxy)]
        exact ih r
      · rw [if_neg hxy, if_neg (mt (h x y).2 hxy)]
        exact .inl ⟨x, y, l, r, rfl, rfl⟩

omit [DecidableEq α] in
/-- Entries can be changed first, as long as they stay the same or different. -/
theorem popCommon_map {π ε : Type} {same : α → α → Bool} {g : α → α}
    (h : ∀ x y, same (g x) (g y) = same x y) (p : π) (l r : List α) :
    popCommon (ε := ε) same p (l.map g) (r.map g) =
      (popCommon same p l r).bind fun x => .ok (g x.1, g x.2.1, x.2.2.1.map g, x.2.2.2.map g) := by
  induction l generalizing r with
  | nil => rfl
  | cons x l ih =>
    cases r with
    | nil => rfl
    | cons y r =>
      rw [List.map_cons, List.map_cons, popCommon, popCommon, h, ih]
      split_ifs <;> rfl

end Diverge

/-! ## Climbs -/

section Climb

variable (hash : Bytes → Bytes)

/-- Fill in the cuts from the leaf upwards. -/
def climb : Bytes → List Cut → Bytes
  | x, [] => x
  | x, c :: cs => climb (hash (c.fill x)) cs

/-- The messages hashed by a climb. -/
def climbImages : Bytes → List Cut → List Bytes
  | _, [] => []
  | x, c :: cs => c.fill x :: climbImages (hash (c.fill x)) cs

theorem climb_append (x : Bytes) (cs cs' : List Cut) :
    climb hash x (cs ++ cs') = climb hash (climb hash x cs) cs' := by
  induction cs generalizing x with
  | nil => rfl
  | cons c cs ih => exact ih _

theorem climbImages_append (x : Bytes) (cs cs' : List Cut) :
    climbImages hash x (cs ++ cs') =
      climbImages hash x cs ++ climbImages hash (climb hash x cs) cs' := by
  induction cs generalizing x with
  | nil => rfl
  | cons c cs ih => exact congrArg (c.fill x :: ·) (ih _)

variable {hash} {w : ℕ}

theorem length_climb (hlen : ∀ m, (hash m).length = w) {x : Bytes} (hx : x.length = w)
    (cs : List Cut) : (climb hash x cs).length = w := by
  induction cs generalizing x with
  | nil => exact hx
  | cons c cs ih => exact ih (hlen _)

variable {S : Set Bytes} (inj : Set.InjOn hash S)

include inj

/-- Climbs through the same cuts to the same root start from the same digest. -/
theorem climb_left_cancel {x y : Bytes} {cs : List Cut} (hx : ∀ q ∈ climbImages hash x cs, q ∈ S)
    (hy : ∀ q ∈ climbImages hash y cs, q ∈ S) (h : climb hash x cs = climb hash y cs) : x = y := by
  induction cs generalizing x y with
  | nil => exact h
  | cons c cs ih =>
    simp only [climbImages, List.mem_cons, forall_eq_or_imp] at hx hy
    exact Cut.fill_inj (inj hx.1 hy.1 (ih hx.2 hy.2 h))

/-- A climb that ends with the whole of another climb to the same root is that climb, when leaf
messages are never filled cuts. -/
theorem eq_of_climb_tail {m m' : Bytes} {cs cs' : List Cut}
    (leaf_ne : ∀ c ∈ cs, ∀ x, m' ≠ c.fill x) (hm : m ∈ S) (hm' : m' ∈ S)
    (hcs : ∀ q ∈ climbImages hash (hash m) (cs ++ cs'), q ∈ S)
    (hcs' : ∀ q ∈ climbImages hash (hash m') cs', q ∈ S)
    (h : climb hash (hash m) (cs ++ cs') = climb hash (hash m') cs') : cs = [] ∧ m = m' := by
  rw [climb_append] at h
  rw [climbImages_append] at hcs
  have hlow := climb_left_cancel inj (fun q hq => hcs q (List.mem_append_right _ hq)) hcs' h
  rcases List.eq_nil_or_concat cs with rfl | ⟨cs, c, rfl⟩
  · exact ⟨rfl, inj hm hm' hlow⟩
  · simp only [List.concat_eq_append, climb_append, climbImages_append] at hlow hcs
    have hfill := inj hm' (hcs _ (by simp [climbImages])) hlow.symm
    exact absurd hfill (leaf_ne c (by simp) _)

/-- Where two climbs to one root part, both fill their cuts to the same message. -/
theorem fill_eq_of_diverge {x y : Bytes} {a b : Cut} {cs cs' l r : List Cut}
    (hd : diverge cs.reverse cs'.reverse = some (a, b, l, r))
    (hx : ∀ q ∈ climbImages hash x cs, q ∈ S) (hy : ∀ q ∈ climbImages hash y cs', q ∈ S)
    (h : climb hash x cs = climb hash y cs') :
    a.fill (climb hash x l.reverse) = b.fill (climb hash y r.reverse) := by
  obtain ⟨t, hcs, hcs', -⟩ := diverge_eq_some hd
  rw [List.reverse_eq_append_iff, List.reverse_cons, List.append_assoc] at hcs hcs'
  subst hcs hcs'
  simp only [climb_append, climb, List.singleton_append] at h
  simp only [climbImages_append, climbImages, List.mem_append, List.mem_cons,
    List.singleton_append] at hx hy
  have hroot := climb_left_cancel inj (fun q hq => hx q (.inr (.inr hq)))
    (fun q hq => hy q (.inr (.inr hq))) h
  exact inj (hx _ (.inr (.inl rfl))) (hy _ (.inr (.inl rfl))) hroot

end Climb

/-! ## Node formats -/

/-- The byte strings hashed at the nodes of a tree. -/
structure NodeFormat (E N L : Type) where
  /-- The digest standing for an empty subtree; nothing is hashed for it. -/
  blank : E → Bytes
  leaf : L → Bytes
  before : N → Bytes
  between : N → Bytes

namespace NodeFormat

variable (F : NodeFormat E N L)

/-- The message of an inner node. -/
def node (n : N) (l r : Bytes) : Bytes := F.before n ++ l ++ F.between n ++ r

/-- The message of an inner node without its left child. -/
def leftCut (n : N) (r : Bytes) : Cut := (F.before n, F.between n ++ r)

/-- The message of an inner node without its right child. -/
def rightCut (n : N) (l : Bytes) : Cut := (F.before n ++ l ++ F.between n, [])

theorem fill_leftCut (n : N) (l r : Bytes) : (F.leftCut n r).fill l = F.node n l r := by
  simp [Cut.fill, leftCut, node]

theorem fill_rightCut (n : N) (l r : Bytes) : (F.rightCut n l).fill r = F.node n l r := by
  simp [Cut.fill, rightCut, node]

variable (hash : Bytes → Bytes)

/-- The digest of a tree. -/
def digest : BinTree E N L → Bytes
  | .empty e => F.blank e
  | .leaf l => hash (F.leaf l)
  | .node n a b => hash (F.node n (digest a) (digest b))

/-- The messages hashed at the nodes of a tree. -/
def images : BinTree E N L → List Bytes
  | .empty _ => []
  | .leaf l => [F.leaf l]
  | .node n a b => F.node n (F.digest hash a) (F.digest hash b) :: (images a ++ images b)

/-- The cuts along a path, from the leaf upwards. -/
def cuts : BinTree E N L → List Side → List Cut
  | .node n a b, .left :: ds => cuts a ds ++ [F.leftCut n (F.digest hash b)]
  | .node n a b, .right :: ds => cuts b ds ++ [F.rightCut n (F.digest hash a)]
  | _, _ => []

variable {F hash}

theorem leaf_mem_images {T : BinTree E N L} {ds : List Side} {l : L}
    (h : T.leafAt ds = some l) : F.leaf l ∈ F.images hash T := by
  induction T generalizing ds with
  | empty e => simp [BinTree.leafAt] at h
  | leaf m => cases ds <;> simp_all [BinTree.leafAt, images]
  | node n a b iha ihb =>
    rcases ds with _ | ⟨_ | _, ds⟩
    · simp [BinTree.leafAt] at h
    · exact List.mem_cons_of_mem _ (List.mem_append_left _ (iha h))
    · exact List.mem_cons_of_mem _ (List.mem_append_right _ (ihb h))

/-- The honest cuts of a leaf climb to the root. -/
theorem climb_cuts {T : BinTree E N L} {ds : List Side} {l : L} (h : T.leafAt ds = some l) :
    climb hash (hash (F.leaf l)) (F.cuts hash T ds) = F.digest hash T := by
  induction T generalizing ds with
  | empty e => simp [BinTree.leafAt] at h
  | leaf m => cases ds <;> simp_all [BinTree.leafAt, cuts, climb, digest]
  | node n a b iha ihb =>
    rcases ds with _ | ⟨_ | _, ds⟩
    · simp [BinTree.leafAt] at h
    · rw [cuts, climb_append, iha h, climb, climb, fill_leftCut, digest]
    · rw [cuts, climb_append, ihb h, climb, climb, fill_rightCut, digest]

/-- An honest climb hashes only messages of the tree. -/
theorem climbImages_cuts {T : BinTree E N L} {ds : List Side} {l : L}
    (h : T.leafAt ds = some l) {q : Bytes}
    (hq : q ∈ climbImages hash (hash (F.leaf l)) (F.cuts hash T ds)) : q ∈ F.images hash T := by
  induction T generalizing ds with
  | empty e => simp [BinTree.leafAt] at h
  | leaf m => cases ds <;> simp_all [BinTree.leafAt, cuts, climbImages]
  | node n a b iha ihb =>
    rcases ds with _ | ⟨_ | _, ds⟩
    · simp [BinTree.leafAt] at h
    · rw [cuts, climbImages_append, climb_cuts (T := a) h, climbImages, climbImages,
        fill_leftCut, List.mem_append, List.mem_singleton] at hq
      rcases hq with hq | rfl
      · exact List.mem_cons_of_mem _ (List.mem_append_left _ (iha h hq))
      · exact List.mem_cons_self
    · rw [cuts, climbImages_append, climb_cuts (T := b) h, climbImages, climbImages,
        fill_rightCut, List.mem_append, List.mem_singleton] at hq
      rcases hq with hq | rfl
      · exact List.mem_cons_of_mem _ (List.mem_append_right _ (ihb h hq))
      · exact List.mem_cons_self

/-- There is one cut for every turn of the path. -/
theorem length_cuts {T : BinTree E N L} {ds : List Side} {l : L} (h : T.leafAt ds = some l) :
    (F.cuts hash T ds).length = ds.length := by
  induction T generalizing ds with
  | empty e => simp [BinTree.leafAt] at h
  | leaf m => cases ds <;> simp_all [BinTree.leafAt, cuts]
  | node n a b iha ihb =>
    rcases ds with _ | ⟨_ | _, ds⟩
    · simp [BinTree.leafAt] at h
    · rw [cuts, List.length_append, iha h, List.length_singleton, List.length_cons]
    · rw [cuts, List.length_append, ihb h, List.length_singleton, List.length_cons]

theorem length_digest {w : ℕ} (hlen : ∀ m, (hash m).length = w)
    (blank_len : ∀ e, (F.blank e).length = w) (T : BinTree E N L) :
    (F.digest hash T).length = w := by
  cases T with
  | empty e => exact blank_len e
  | leaf l => exact hlen _
  | node n a b => exact hlen _

/-- A tree with the digest of an empty subtree has no leaf, unless one of its messages hashes to
that digest. -/
theorem noLeaf_of_digest_eq_blank {T : BinTree E N L} {e : E}
    (fresh : ∀ m ∈ F.images hash T, hash m ≠ F.blank e) (h : F.digest hash T = F.blank e) :
    T.NoLeaf := by
  cases T with
  | empty e' => rfl
  | leaf l => exact absurd h (fresh _ List.mem_cons_self)
  | node n a b => exact absurd h (fresh _ List.mem_cons_self)

/-! ### Accepted cuts fit the format -/

/-- The verifier accepts `LeafOk` messages as leaves and `CutOk` cuts as inner steps, and on trees
of the format `F` with `w`-byte digests these can only be read as what they are. -/
structure Discipline (F : NodeFormat E N L) (w : ℕ) (LeafOk : Bytes → Prop)
    (CutOk : Cut → Prop) : Prop where
  leaf_ne_node : ∀ {m n l r}, LeafOk m → l.length = w → r.length = w → m ≠ F.node n l r
  fill_ne_leaf : ∀ {c child l}, CutOk c → child.length = w → c.fill child ≠ F.leaf l
  eq_of_fill_eq_node : ∀ {c child n l r}, CutOk c → child.length = w → l.length = w →
    r.length = w → c.fill child = F.node n l r →
      (c = F.leftCut n r ∧ child = l) ∨ (c = F.rightCut n l ∧ child = r)

/-- An accepted climb to the root of a tree is the honest climb of one of its leaves. -/
theorem Discipline.descend {w : ℕ} {LeafOk : Bytes → Prop} {CutOk : Cut → Prop}
    (D : Discipline F w LeafOk CutOk) (hlen : ∀ m, (hash m).length = w)
    (blank_len : ∀ e, (F.blank e).length = w) {S : Set Bytes} (inj : Set.InjOn hash S)
    (fresh : ∀ m ∈ S, ∀ e, hash m ≠ F.blank e) {T : BinTree E N L}
    (hT : ∀ q ∈ F.images hash T, q ∈ S) {m : Bytes} (hm : LeafOk m) (hmS : m ∈ S)
    {cs : List Cut} (hcs : ∀ c ∈ cs, CutOk c)
    (hclimb : ∀ q ∈ climbImages hash (hash m) cs, q ∈ S)
    (root : climb hash (hash m) cs = F.digest hash T) :
    ∃ ds l, T.leafAt ds = some l ∧ cs = F.cuts hash T ds ∧ m = F.leaf l := by
  induction cs using List.reverseRecOn generalizing T with
  | nil =>
    cases T with
    | empty e => exact absurd root (fresh m hmS e)
    | leaf l => exact ⟨[], l, rfl, rfl, inj hmS (hT _ List.mem_cons_self) root⟩
    | node n a b =>
      have := inj hmS (hT _ List.mem_cons_self) root
      exact absurd this
        (D.leaf_ne_node hm (length_digest hlen blank_len a) (length_digest hlen blank_len b))
  | append_singleton cs c ih =>
    simp only [List.mem_append, List.mem_singleton] at hcs
    simp only [climb_append, climb] at root
    simp only [climbImages_append, climbImages, List.mem_append, List.mem_singleton] at hclimb
    have hc : CutOk c := hcs c (.inr rfl)
    have hfill : c.fill (climb hash (hash m) cs) ∈ S := hclimb _ (.inr rfl)
    have hchild := length_climb hlen (hlen m) cs
    cases T with
    | empty e => exact absurd root (fresh _ hfill e)
    | leaf l =>
      exact absurd (inj hfill (hT _ List.mem_cons_self) root) (D.fill_ne_leaf hc hchild)
    | node n a b =>
      simp only [images, List.mem_cons, List.mem_append] at hT
      have hnode := inj hfill (hT _ (.inl rfl)) root
      rcases D.eq_of_fill_eq_node hc hchild (length_digest hlen blank_len a)
        (length_digest hlen blank_len b) hnode with ⟨rfl, hroot⟩ | ⟨rfl, hroot⟩
      · obtain ⟨ds, l, hl, rfl, rfl⟩ := ih (fun q hq => hT q (.inr (.inl hq)))
          (fun c hc => hcs c (.inl hc)) (fun q hq => hclimb q (.inl hq)) hroot
        exact ⟨.left :: ds, l, hl, rfl, rfl⟩
      · obtain ⟨ds, l, hl, rfl, rfl⟩ := ih (fun q hq => hT q (.inr (.inr hq)))
          (fun c hc => hcs c (.inl hc)) (fun q hq => hclimb q (.inl hq)) hroot
        exact ⟨.right :: ds, l, hl, rfl, rfl⟩

end NodeFormat

end Ics23
