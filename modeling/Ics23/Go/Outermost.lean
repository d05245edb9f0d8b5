import Ics23.Go.Capacity
import Ics23.Go.Places

/-!
# Outermost paths in nodes of any arity

`IsLeftMost` and `IsRightMost` should accept a path exactly if the children of all smaller, or of
all greater, branches are the empty one (`OutermostExact`).  They take numbers of branches for
numbers of slots, and `outermostExact_iff_pathInPlace` says for which child orders and branches
of the steps this makes no difference.  On a single path the steps after the one that ends the loop
do not matter (`OutermostExact.of_stops`), and spare bytes behind the slices never do
(`OutermostExact.with_spare`).
-/

namespace Ics23.Go

open Outcome

variable {w : Layout}

/-- A step that is cut at a place. -/
def stepAt (pl : Place w) : InnerOp where
  hash := 1
  prefix_ := pl.cut.1
  suffix := some pl.cut.2

theorem cut_stepAt (pl : Place w) : (stepAt pl).cut = pl.cut := rfl

theorem map_cut_stepAt (places : List (Place w)) :
    (places.map stepAt).map InnerOp.cut = places.map Place.cut := by
  rw [List.map_map]
  rfl

/-- The given positions, in nodes that depend on the position only. -/
def placesAt (N : Fin w.arity → Node UInt8 w) (positions : List (Fin w.arity)) : List (Place w) :=
  positions.map fun p => ⟨N p, p⟩

theorem map_position_placesAt (N : Fin w.arity → Node UInt8 w) (positions : List (Fin w.arity)) :
    (placesAt N positions).map Place.position = positions := by
  rw [placesAt, List.map_map]
  exact List.map_id positions

/-! ### Loops over the places of a path -/

/-- A loop over a path accepts exactly the paths with `Empty` at all places, and does not panic,
whatever is in the nodes that the steps are cut from. -/
def SideExact (loop : List InnerOp → Result Bool) (Empty : Place w → Prop)
    (positions : List (Fin w.arity)) : Prop :=
  ∀ (path : List InnerOp) (places : List (Place w)), places.map Place.position = positions →
    path.map InnerOp.cut = places.map Place.cut →
      (loop path = .ok true ↔ ∀ pl ∈ places, Empty pl) ∧ NoPanic (loop path)

/-- The padding `pad` marks the steps at the outermost branch, where nothing has to be empty. -/
structure Marks (pad : Padding) (done : Fin w.arity → Prop) (Empty : Place w → Prop) : Prop where
  pad_iff : ∀ {op : InnerOp} {pl : Place w}, op.cut = pl.cut →
    (hasPadding op pad ↔ done pl.position)
  empty_of_done : ∀ {pl : Place w}, done pl.position → Empty pl

section Side

variable {pad : Padding} {check : InnerOp → Result Bool} {done : Fin w.arity → Prop}
  {Empty : Place w → Prop} {positions : List (Fin w.arity)} (M : Marks pad done Empty)

include M

/-- A loop is right if every check that it makes is. -/
theorem sideExact_of_checks
    (h : ∀ op (pl : Place w), op.cut = pl.cut → pl.position ∈ positions → ¬ done pl.position →
      (check op = .ok true ↔ Empty pl) ∧ NoPanic (check op)) :
    SideExact (isOutermost pad check) Empty positions := by
  rintro path places rfl hpath
  have hmem {pl : Place w} (hpl : pl ∈ places) : pl.position ∈ places.map Place.position :=
    List.mem_map_of_mem hpl
  refine ⟨?_, isOutermost_noPanic ?_⟩
  · rw [isOutermost_eq_ok]
    refine forall_mem_congr_of_map_eq hpath fun op pl hpl hcut => ?_
    rw [M.pad_iff hcut]
    by_cases hdone : done pl.position
    · simp [hdone, M.empty_of_done hdone]
    · simp [hdone, (h op pl hcut (hmem hpl) hdone).1]
  · refine (forall_mem_congr_of_map_eq hpath fun op pl hpl hcut => ?_).2 fun _ _ => trivial
    rw [M.pad_iff hcut, iff_true]
    exact or_iff_not_imp_left.2 fun hdone => (h op pl hcut (hmem hpl) hdone).2

/-- What a right loop says about nodes that depend on the position only. -/
theorem SideExact.checks_iff (h : SideExact (isOutermost pad check) Empty positions)
    (N : Fin w.arity → Node UInt8 w) :
    (∀ p ∈ positions, done p ∨ check (stepAt ⟨N p, p⟩) = .ok true) ↔
      ∀ p ∈ positions, Empty ⟨N p, p⟩ := by
  have hsteps := (h _ _ (map_position_placesAt N positions) (map_cut_stepAt _)).1
  rw [isOutermost_eq_ok, List.forall_mem_map, placesAt, List.forall_mem_map,
    List.forall_mem_map] at hsteps
  rw [← hsteps]
  exact forall₂_congr fun p _ => or_congr_left (M.pad_iff (cut_stepAt ⟨N p, p⟩)).symm

/-- If no check ever passes, the first one decides. -/
theorem noPanic_isOutermost_iff [DecidablePred done] {safe : Place w → Prop}
    (h : ∀ op (pl : Place w), op.cut = pl.cut → ¬ done pl.position →
      check op ≠ .ok true ∧ (NoPanic (check op) ↔ safe pl))
    {path : List InnerOp} {places : List (Place w)}
    (hpath : path.map InnerOp.cut = places.map Place.cut) :
    NoPanic (isOutermost pad check path) ↔
      ∀ pl, places.find? (fun pl => ¬ done pl.position) = some pl → safe pl := by
  induction places generalizing path with
  | nil =>
    obtain rfl : path = [] := List.map_eq_nil_iff.1 hpath
    simp [isOutermost, noPanic_ok]
  | cons pl places ih =>
    obtain ⟨op, path, rfl, hcut, hpath⟩ := List.map_eq_cons_iff.1 hpath
    rw [isOutermost, List.find?_cons]
    by_cases hdone : done pl.position
    · rw [if_pos ((M.pad_iff hcut).2 hdone), ih hpath]
      simp [hdone]
    · obtain ⟨hfails, hsafe⟩ := h op pl hcut hdone
      rw [if_neg fun hpad => hdone ((M.pad_iff hcut).1 hpad)]
      have hend : (do if ← check op then isOutermost pad check path else return false) =
          check op := by
        cases hop : check op with
        | ok b =>
          cases b with
          | true => exact absurd hop hfails
          | false => rfl
        | err e => rfl
        | panic p => rfl
      rw [hend, hsafe]
      simp [hdone]

/-- If no check ever passes, and rightly so, a loop is right if its first check does not panic. -/
theorem sideExact_iff_first [DecidablePred done] {safe : Place w → Prop}
    (h : ∀ op (pl : Place w), op.cut = pl.cut → ¬ done pl.position →
      check op ≠ .ok true ∧ (NoPanic (check op) ↔ safe pl))
    (hempty : ∀ pl : Place w, ¬ done pl.position → ¬ Empty pl) :
    SideExact (isOutermost pad check) Empty positions ↔
      ∀ p, positions.find? (fun p => ¬ done p) = some p → ∀ N, safe ⟨N, p⟩ := by
  constructor
  · intro hexact p hfind N
    have hpath := map_cut_stepAt (placesAt (fun _ => N) positions)
    have hnoPanic := (hexact _ _ (map_position_placesAt (fun _ => N) positions) hpath).2
    refine (noPanic_isOutermost_iff M h hpath).1 hnoPanic ⟨N, p⟩ ?_
    rw [placesAt, List.find?_map]
    exact congrArg (Option.map _) hfind
  · rintro hfirst path places rfl hpath
    refine ⟨?_, (noPanic_isOutermost_iff M h hpath).2 fun pl hfind => ?_⟩
    · rw [isOutermost_eq_ok]
      refine forall_mem_congr_of_map_eq hpath fun op pl _ hcut => ?_
      rw [M.pad_iff hcut]
      by_cases hdone : done pl.position
      · simp [hdone, M.empty_of_done hdone]
      · simp [hdone, hempty pl hdone, (h op pl hcut hdone).1]
    · refine hfirst pl.position ?_ pl.node
      rw [List.find?_map]
      exact congrArg (Option.map Place.position) hfind

end Side

/-! ### Loops that stop, and loops over slices with spare bytes -/

section Loops

variable {pad : Padding} {check check' : InnerOp → Result Bool} {Empty : Place w → Prop}
  {positions : List (Fin w.arity)}

/-- The steps after the one that ends a loop are not looked at. -/
theorem isOutermost_append {path : List InnerOp} (stops : isOutermost pad check path ≠ .ok true)
    (rest : List InnerOp) :
    isOutermost pad check (path ++ rest) = isOutermost pad check path := by
  induction path with
  | nil => exact absurd rfl stops
  | cons op path ih =>
    rw [List.cons_append]
    unfold isOutermost at stops ⊢
    split_ifs at stops ⊢ with hpad
    · exact ih stops
    · cases hop : check op with
      | ok b =>
        cases b with
        | true =>
          rw [hop] at stops
          exact ih stops
        | false => rfl
      | _ => rfl

/-- A loop that stops within the steps of a right path is right on what follows. -/
theorem SideExact.of_stops (h : SideExact (isOutermost pad check) Empty positions)
    {path rest : List InnerOp} {places more : List (Place w)}
    (hpositions : places.map Place.position = positions)
    (hpath : path.map InnerOp.cut = places.map Place.cut)
    (stops : isOutermost pad check path ≠ .ok true) :
    (isOutermost pad check (path ++ rest) = .ok true ↔ ∀ pl ∈ places ++ more, Empty pl) ∧
      NoPanic (isOutermost pad check (path ++ rest)) := by
  obtain ⟨hiff, hnoPanic⟩ := h path places hpositions hpath
  rw [isOutermost_append stops]
  refine ⟨iff_of_false stops fun hall => stops (hiff.2 fun pl hpl => ?_), hnoPanic⟩
  exact hall pl (List.mem_append_left more hpl)

/-- Two checks that differ only where one of them panics give the same answer in a loop that does
not panic. -/
theorem isOutermost_of_noPanic (hcheck : ∀ op, NoPanic (check op) → check' op = check op)
    {path : List InnerOp} (h : NoPanic (isOutermost pad check path)) :
    isOutermost pad check' path = isOutermost pad check path := by
  induction path with
  | nil => rfl
  | cons op path ih =>
    unfold isOutermost at h ⊢
    split_ifs at h ⊢ with hpad
    · exact ih h
    · rw [hcheck op h.of_bind]
      cases hop : check op with
      | ok b =>
        cases b with
        | true =>
          rw [hop] at h
          exact ih h
        | false => rfl
      | _ => rfl

theorem SideExact.of_noPanic (h : SideExact (isOutermost pad check) Empty positions)
    (hcheck : ∀ op, NoPanic (check op) → check' op = check op) :
    SideExact (isOutermost pad check') Empty positions := by
  intro path places hpositions hpath
  have hexact := h path places hpositions hpath
  rwa [isOutermost_of_noPanic hcheck hexact.2]

end Loops

/-! ### Nodes with a live child -/

/-- A child that is not the empty one. -/
def liveChild (empty : Bytes) : Bytes := empty.map (· + 1)

theorem liveChild_ne {empty : Bytes} (h : 0 < empty.length) : liveChild empty ≠ empty := by
  obtain ⟨x, rest, rfl⟩ := List.exists_cons_of_length_pos h
  have hx : x + 1 ≠ x := by simp
  simp [liveChild, hx]

/-- A node with the longest header, and with the empty child in all slots but the live ones. -/
def liveNode {empty : Bytes} (h : empty.length = w.width) (live : Fin w.arity → Bool) :
    Node UInt8 w where
  header := List.replicate w.hi 0
  slot q := if live q then liveChild empty else empty
  lo_le := by rw [List.length_replicate]; exact w.lo_le_hi
  le_hi := List.length_replicate.le
  length_slot q := by split_ifs <;> simp [liveChild, h]

/-- Some node with the longest header. -/
def longNode (w : Layout) : Node UInt8 w :=
  liveNode (show (List.replicate w.width (0 : UInt8)).length = w.width from List.length_replicate)
    fun _ => false

theorem length_header_longNode : (longNode w).header.length = w.hi := List.length_replicate

/-! ### The two loops -/

theorem isLeftMost_eq_loop {s : InnerSpec} {pad : Padding} (hpad : getPadding s 0 = .ok pad) :
    isLeftMost s = isOutermost pad (leftBranchesAreEmpty s) := by
  funext path
  rw [isLeftMost, hpad, ok_bind]

theorem isRightMost_eq_loop {s : InnerSpec} {pad : Padding}
    (hpad : getPadding s (Int32.ofInt ((s.childOrder.length : ℤ) - 1)) = .ok pad) :
    isRightMost s = isOutermost pad (rightBranchesAreEmpty s) := by
  funext path
  rw [isRightMost, hpad, ok_bind]

/-! ### The left side -/

/-- The check on the left side of a step looks at the right slots: the step stands at its branch
number, after all smaller branches. -/
def LeftInPlace (σ : Equiv.Perm (Fin w.arity)) (p : Fin w.arity) : Prop :=
  (σ p : ℕ) = 0 ∨ w.arity < 2 ^ 31 ∧ σ p = p ∧ ∀ q, σ q < σ p → q < p

section Left

variable {s : InnerSpec} {σ : Equiv.Perm (Fin w.arity)} (L : HasLayout s w σ)
  {positions : List (Fin w.arity)}

include L

theorem exists_marks_left :
    ∃ pad, isLeftMost s = isOutermost pad (leftBranchesAreEmpty s) ∧
      Marks pad (fun p => (σ p : ℕ) = 0) fun pl => pl.EmptyBefore σ s.emptyChild := by
  obtain ⟨first, hfirst⟩ := exists_firstBranch_position σ w.arity_pos
  have hpad := getPadding_eq L first
  rw [(hfirst first).2 rfl] at hpad
  refine ⟨paddingAt w first, isLeftMost_eq_loop hpad, fun {op pl} hcut => ?_,
    fun {pl} hdone q hq => ?_⟩
  · rw [hasPadding_position_iff hcut, hfirst]
  · have hlt : (σ q : ℕ) < σ pl.position := hq
    omega

/-- A step in place is checked as it should be. -/
theorem leftBranchesAreEmpty_inPlace {op : InnerOp} {pl : Place w} (h : op.cut = pl.cut)
    (hfirst : (σ pl.position : ℕ) ≠ 0) (hplace : LeftInPlace σ pl.position) :
    (leftBranchesAreEmpty s op = .ok true ↔ pl.EmptyBefore σ s.emptyChild) ∧
      NoPanic (leftBranchesAreEmpty s op) := by
  obtain ⟨hfew, hfix, hbefore⟩ := hplace.resolve_left hfirst
  have hthere (q : Fin w.arity) (hq : σ q < σ pl.position) : (q : ℕ) < σ pl.position := by
    rw [hfix]
    exact hbefore q hq
  refine ⟨?_, leftBranchesAreEmpty_noPanic L h hthere⟩
  rw [leftBranchesAreEmpty_iff_slots L h hfix.le]
  constructor
  · rintro ⟨-, hall⟩ q hq
    exact (hall q hq).2 q (by rw [hfix, add_comm])
  · intro hempty
    refine ⟨⟨hfew, hfirst⟩, fun q hq => ⟨hthere q hq, fun r hr => ?_⟩⟩
    rw [hfix, add_comm, Nat.add_left_cancel_iff, ← Fin.ext_iff] at hr
    exact hempty r (hr ▸ hq)

/-- Nodes of empty children, and of empty children but one, tell that all steps are in place. -/
theorem leftInPlace_of_exact (hsize : s.emptyChild.length = w.width)
    (h : SideExact (isLeftMost s) (fun pl => pl.EmptyBefore σ s.emptyChild) positions)
    {p : Fin w.arity} (hp : p ∈ positions) : LeftInPlace σ p := by
  obtain ⟨pad, hloop, M⟩ := exists_marks_left L
  rw [hloop] at h
  by_contra hplace
  unfold LeftInPlace at hplace
  push Not at hplace
  obtain ⟨hfirst, hplace⟩ := hplace
  let vacant : Node UInt8 w := liveNode hsize fun _ => false
  have hvacant := (h.checks_iff M fun _ => vacant).2 fun _ _ _ _ => rfl
  obtain ⟨⟨hfew, -⟩, -, hall⟩ := (leftBranchesAreEmpty_eq_ok L (cut_stepAt ⟨vacant, p⟩)).1
    ((hvacant p hp).resolve_left hfirst)
  -- the smaller branches take the first positions, so the step is not among these
  have hkeep := fun q => perm_lt_of_lt (q := q) fun r hr => (hall r hr).1
  have hle : σ p ≤ p := not_lt.1 fun hlt => lt_irrefl _ (hkeep p hlt)
  by_cases hfix : σ p = p
  · obtain ⟨q, hq, hpq⟩ := hplace hfew hfix
    have hlt : q < σ p := (hall q hq).1
    rw [hfix] at hlt
    exact absurd hlt (not_lt.2 hpq)
  · -- the check misses the first slot
    have hlt : (σ p : ℕ) < p := lt_of_le_of_ne hle fun heq => hfix (Fin.ext heq)
    let first : Fin w.arity := ⟨0, w.arity_pos⟩
    let node : Node UInt8 w := liveNode hsize fun q => q = first
    have hempty := (h.checks_iff M fun r => if r = p then node else vacant).1 fun r hr => ?_
    · have hslot := hempty p hp first (hkeep first (Nat.pos_of_ne_zero hfirst))
      have hlive : node.slot first = liveChild s.emptyChild := by simp [node, liveNode]
      simp only [if_true, hlive] at hslot
      exact liveChild_ne (hsize ▸ w.width_pos) hslot
    · by_cases hrp : r = p
      · subst hrp
        refine .inr ((leftBranchesAreEmpty_iff_slots L (cut_stepAt _) hle).2
          ⟨⟨hfew, hfirst⟩, fun q hq => ⟨(hall q hq).1, fun slot hslot => ?_⟩⟩)
        have hother : slot ≠ first := fun heq => by
          have hzero : (slot : ℕ) = 0 := congrArg Fin.val heq
          have hsum : (slot : ℕ) + σ r = r + q := hslot
          omega
        simp [node, liveNode, hother]
      · simp only [hrp, if_false]
        exact hvacant r hr

/-- If no slot can hold the empty child, the check on the left side of a step gives an answer: there
are too many branches, too few bytes before the step, or the first branch stands early enough. -/
def LeftHarmless (σ : Equiv.Perm (Fin w.arity)) (p : Fin w.arity) : Prop :=
  ¬ w.arity < 2 ^ 31 ∨ p * w.width + w.hi < σ p * w.width ∨
    ∀ q, (σ q : ℕ) = 0 → (q : ℕ) < σ p

/-- When the left side is right. -/
theorem leftExact_iff :
    SideExact (isLeftMost s) (fun pl => pl.EmptyBefore σ s.emptyChild) positions ↔
      if s.emptyChild.length = w.width then ∀ p ∈ positions, LeftInPlace σ p
      else ∀ p, positions.find? (fun p => ¬ (σ p : ℕ) = 0) = some p → LeftHarmless σ p := by
  obtain ⟨pad, hloop, M⟩ := exists_marks_left L
  split_ifs with hsize
  · refine ⟨fun h p hp => leftInPlace_of_exact L hsize h hp, fun h => ?_⟩
    rw [hloop]
    exact sideExact_of_checks M fun op pl hcut hpl hfirst =>
      leftBranchesAreEmpty_inPlace L hcut hfirst (h _ hpl)
  · rw [hloop, sideExact_iff_first M
      (fun op pl hcut hfirst => leftBranchesAreEmpty_of_length_ne L hcut hsize hfirst) ?_]
    · refine forall₂_congr fun p hfind => ⟨fun h => ?_, fun h N => ?_⟩
      · have hlong := h (longNode w)
        rwa [(longNode w).length_before p.isLt.le, length_header_longNode, add_comm] at hlong
      · refine h.imp_right (Or.imp_left fun hlt => ?_)
        have hhead := N.le_hi
        show (N.before p).length < σ p * w.width
        rw [N.length_before p.isLt.le]
        omega
    · intro pl hfirst hempty
      obtain ⟨first, hzero⟩ := exists_firstBranch_position σ w.arity_pos
      have hlt : σ first < σ pl.position := by
        rw [Fin.lt_def, (hzero first).2 rfl]
        exact Nat.pos_of_ne_zero hfirst
      exact hsize (hempty first hlt ▸ pl.node.length_slot first)

end Left

/-! ### The right side -/

/-- The check on the right side of a step looks at the right slots: the step stands at its branch
number, before all greater branches, and as many of the first branches as there are greater ones
take the first positions. -/
def RightInPlace (σ : Equiv.Perm (Fin w.arity)) (p : Fin w.arity) : Prop :=
  (σ p : ℕ) + 1 = w.arity ∨ w.arity < 2 ^ 31 ∧ σ p = p ∧
    (∀ q, (σ q : ℕ) + p + 1 < w.arity → (q : ℕ) + p + 1 < w.arity) ∧ ∀ q, p < σ q → p < q

section Right

variable {s : InnerSpec} {σ : Equiv.Perm (Fin w.arity)} (L : HasLayout s w σ)
  {positions : List (Fin w.arity)}

include L

theorem exists_marks_right :
    ∃ pad, isRightMost s = isOutermost pad (rightBranchesAreEmpty s) ∧
      Marks pad (fun p => (σ p : ℕ) + 1 = w.arity) fun pl => pl.EmptyAfter σ s.emptyChild := by
  have hpos := w.arity_pos
  let last : Fin w.arity := σ.symm ⟨w.arity - 1, Nat.sub_lt hpos one_pos⟩
  have hlast : (σ last : ℕ) = w.arity - 1 := by rw [Equiv.apply_symm_apply]
  have hpad := getPadding_eq L last
  have hbranch : Int32.ofInt ((s.childOrder.length : ℤ) - 1) = Int32.ofNat (σ last) := by
    rw [hlast, L.length_childOrder, ← Int32.ofInt_eq_ofNat]
    congr 1
    omega
  refine ⟨paddingAt w last, isRightMost_eq_loop (hbranch ▸ hpad), fun {op pl} hcut => ?_,
    fun {pl} hdone q hq => ?_⟩
  · rw [hasPadding_position_iff hcut, ← σ.injective.eq_iff, Fin.ext_iff, hlast]
    omega
  · have hlt : (σ pl.position : ℕ) < σ q := hq
    have := (σ q).isLt
    omega

/-- A step in place is checked as it should be. -/
theorem rightBranchesAreEmpty_inPlace {op : InnerOp} {pl : Place w} (h : op.cut = pl.cut)
    (hlast : (σ pl.position : ℕ) + 1 ≠ w.arity) (hplace : RightInPlace σ pl.position) :
    (rightBranchesAreEmpty s op = .ok true ↔ pl.EmptyAfter σ s.emptyChild) ∧
      NoPanic (rightBranchesAreEmpty s op) := by
  obtain ⟨hfew, hfix, hthere, hafter⟩ := hplace.resolve_left hlast
  refine ⟨?_, rightBranchesAreEmpty_noPanic L h hthere⟩
  rw [rightBranchesAreEmpty_iff_slots L h]
  constructor
  · rintro ⟨-, -, hall⟩ r hr
    rw [hfix] at hr
    have hpr : (pl.position : ℕ) < r := hafter r hr
    have hrn := r.isLt
    -- the slot has the number of one of the first branches
    let q : Fin w.arity := ⟨r - (pl.position + 1), by omega⟩
    have hkeep : (σ q : ℕ) < w.arity - (pl.position + 1) :=
      perm_lt_of_lt (fun q hq => by have := hthere q (by omega); omega)
        (show (r : ℕ) - (pl.position + 1) < _ by omega)
    exact (hall q (by omega)).2 r (show (r : ℕ) = _ + (r - (pl.position + 1)) by omega)
  · intro hempty
    refine ⟨⟨hfew, hlast⟩, hfix, fun q hq => ⟨hthere q hq, fun r hr => hempty r ?_⟩⟩
    -- no branch up to its own stands after the step, so the slots there belong to greater ones
    have hback (q : Fin w.arity) (hq : (σ.symm q : ℕ) < pl.position + 1) :
        (q : ℕ) < pl.position + 1 := by
      by_contra hlt
      have hgreater : pl.position < σ (σ.symm q) := by
        rw [Equiv.apply_symm_apply, Fin.lt_def]
        omega
      have hlate : (pl.position : ℕ) < σ.symm q := hafter _ hgreater
      omega
    rw [hfix, Fin.lt_def]
    by_contra hle
    have hearly := perm_lt_of_lt hback (show (σ r : ℕ) < pl.position + 1 by omega)
    rw [Equiv.symm_apply_apply] at hearly
    omega

/-- Nodes of empty children, and of empty children but one, tell that all steps are in place. -/
theorem rightInPlace_of_exact (hsize : s.emptyChild.length = w.width)
    (h : SideExact (isRightMost s) (fun pl => pl.EmptyAfter σ s.emptyChild) positions)
    {p : Fin w.arity} (hp : p ∈ positions) : RightInPlace σ p := by
  obtain ⟨pad, hloop, M⟩ := exists_marks_right L
  rw [hloop] at h
  by_contra hplace
  unfold RightInPlace at hplace
  push Not at hplace
  obtain ⟨hlast, hplace⟩ := hplace
  let vacant : Node UInt8 w := liveNode hsize fun _ => false
  have hvacant := (h.checks_iff M fun _ => vacant).2 fun _ _ _ _ => rfl
  obtain ⟨⟨hfew, -⟩, hfix, hall⟩ := (rightBranchesAreEmpty_iff_slots L (cut_stepAt ⟨vacant, p⟩)).1
    ((hvacant p hp).resolve_left hlast)
  obtain ⟨early, hgreater, hle⟩ := hplace hfew hfix fun q hq => (hall q hq).1
  -- the check misses the slot of a greater branch that does not stand after the step
  let node : Node UInt8 w := liveNode hsize fun q => q = early
  have hempty := (h.checks_iff M fun r => if r = p then node else vacant).1 fun r hr => ?_
  · have hslot := hempty p hp early (show σ p < σ early from hfix.symm ▸ hgreater)
    have hlive : node.slot early = liveChild s.emptyChild := by simp [node, liveNode]
    simp only [if_true, hlive] at hslot
    exact liveChild_ne (hsize ▸ w.width_pos) hslot
  · by_cases hrp : r = p
    · subst hrp
      refine .inr ((rightBranchesAreEmpty_iff_slots L (cut_stepAt _)).2
        ⟨⟨hfew, hlast⟩, hfix, fun q hq => ⟨(hall q hq).1, fun slot hslot => ?_⟩⟩)
      have hother : slot ≠ early := fun heq => by
        have hsum : (slot : ℕ) = r + 1 + q := hslot
        have hle' : (early : ℕ) ≤ r := hle
        rw [heq] at hsum
        omega
      simp [node, liveNode, hother]
    · simp only [hrp, if_false]
      exact hvacant r hr

/-- If no slot can hold the empty child, the check on the right side of a step gives an answer:
there are too many branches, the step does not stand at its branch number, or the first branch
stands early enough. -/
def RightHarmless (σ : Equiv.Perm (Fin w.arity)) (p : Fin w.arity) : Prop :=
  ¬ w.arity < 2 ^ 31 ∨ σ p ≠ p ∨ ∀ q, (σ q : ℕ) = 0 → (q : ℕ) + p + 1 < w.arity

/-- When the right side is right. -/
theorem rightExact_iff :
    SideExact (isRightMost s) (fun pl => pl.EmptyAfter σ s.emptyChild) positions ↔
      if s.emptyChild.length = w.width then ∀ p ∈ positions, RightInPlace σ p
      else
        ∀ p, positions.find? (fun p => ¬ (σ p : ℕ) + 1 = w.arity) = some p → RightHarmless σ p := by
  obtain ⟨pad, hloop, M⟩ := exists_marks_right L
  split_ifs with hsize
  · refine ⟨fun h p hp => rightInPlace_of_exact L hsize h hp, fun h => ?_⟩
    rw [hloop]
    exact sideExact_of_checks M fun op pl hcut hpl hlast =>
      rightBranchesAreEmpty_inPlace L hcut hlast (h _ hpl)
  · rw [hloop, sideExact_iff_first M
      (fun op pl hcut hlast => rightBranchesAreEmpty_of_length_ne L hcut hsize hlast) ?_]
    · exact forall₂_congr fun p hfind => ⟨fun h => h (longNode w), fun h _ => h⟩
    · intro pl hlast hempty
      let last : Fin w.arity := σ.symm ⟨w.arity - 1, Nat.sub_lt w.arity_pos one_pos⟩
      have hlt : σ pl.position < σ last := by
        have hbound := (σ pl.position).isLt
        rw [Equiv.apply_symm_apply, Fin.lt_def]
        show (σ pl.position : ℕ) < w.arity - 1
        omega
      exact hsize (hempty last hlt ▸ pl.node.length_slot last)

end Right

/-! ### Both sides -/

/-- For all nodes that the steps can be cut from, the two checks give the right answer, without a
panic. -/
def OutermostExact (s : InnerSpec) (σ : Equiv.Perm (Fin w.arity)) (positions : List (Fin w.arity)) :
    Prop :=
  SideExact (isLeftMost s) (fun pl => pl.EmptyBefore σ s.emptyChild) positions ∧
    SideExact (isRightMost s) (fun pl => pl.EmptyAfter σ s.emptyChild) positions

section Loops

variable {s : InnerSpec} {σ : Equiv.Perm (Fin w.arity)} {positions : List (Fin w.arity)}

/-- On a single path only the steps count up to the one that ends the loop. -/
theorem OutermostExact.of_stops (L : HasLayout s w σ) (h : OutermostExact s σ positions)
    {path rest : List InnerOp} {places more : List (Place w)}
    (hpositions : places.map Place.position = positions)
    (hpath : path.map InnerOp.cut = places.map Place.cut) :
    (isLeftMost s path ≠ .ok true →
      (isLeftMost s (path ++ rest) = .ok true ↔
        ∀ pl ∈ places ++ more, pl.EmptyBefore σ s.emptyChild) ∧
      NoPanic (isLeftMost s (path ++ rest))) ∧
    (isRightMost s path ≠ .ok true →
      (isRightMost s (path ++ rest) = .ok true ↔
        ∀ pl ∈ places ++ more, pl.EmptyAfter σ s.emptyChild) ∧
      NoPanic (isRightMost s (path ++ rest))) := by
  obtain ⟨hleft, hright⟩ := h
  obtain ⟨_, hleftLoop, -⟩ := exists_marks_left L
  obtain ⟨_, hrightLoop, -⟩ := exists_marks_right L
  rw [hleftLoop] at hleft ⊢
  rw [hrightLoop] at hright ⊢
  exact ⟨hleft.of_stops hpositions hpath, hright.of_stops hpositions hpath⟩

/-- The checks are right whatever bytes are spare behind the prefixes and the suffixes, if they are
right with none. -/
theorem OutermostExact.with_spare (h : OutermostExact s σ positions) (spare : InnerOp → Bytes)
    {first last : Padding} (hfirst : getPadding s 0 = .ok first)
    (hlast : getPadding s (Int32.ofInt ((s.childOrder.length : ℤ) - 1)) = .ok last) :
    SideExact (isOutermost first fun op => leftBranchesAreEmptyIn (op.prefix_ ++ spare op) s op)
        (fun pl => pl.EmptyBefore σ s.emptyChild) positions ∧
      SideExact
        (isOutermost last fun op => rightBranchesAreEmptyIn (op.suffix.bytes ++ spare op) s op)
        (fun pl => pl.EmptyAfter σ s.emptyChild) positions := by
  obtain ⟨hleft, hright⟩ := h
  rw [isLeftMost_eq_loop hfirst] at hleft
  rw [isRightMost_eq_loop hlast] at hright
  exact ⟨hleft.of_noPanic fun op => leftBranchesAreEmptyIn_of_noPanic (spare op),
    hright.of_noPanic fun op => rightBranchesAreEmptyIn_of_noPanic (spare op)⟩

end Loops

/-- The steps of a path stand where the checks do not confuse branches with slots. -/
def PathInPlace (s : InnerSpec) (σ : Equiv.Perm (Fin w.arity)) (positions : List (Fin w.arity)) :
    Prop :=
  if s.emptyChild.length = w.width then ∀ p ∈ positions, LeftInPlace σ p ∧ RightInPlace σ p
  else
    (∀ p, positions.find? (fun p => ¬ (σ p : ℕ) = 0) = some p → LeftHarmless σ p) ∧
    ∀ p, positions.find? (fun p => ¬ (σ p : ℕ) + 1 = w.arity) = some p → RightHarmless σ p

/-- The checks respect a child order if and only if the steps of the path are in place.  In place
they do so with spare bytes behind the slices too; out of place there are nodes on which they go
wrong with none. -/
theorem outermostExact_iff_pathInPlace {s : InnerSpec} {σ : Equiv.Perm (Fin w.arity)}
    (L : HasLayout s w σ) (positions : List (Fin w.arity)) :
    OutermostExact s σ positions ↔ PathInPlace s σ positions := by
  rw [OutermostExact, leftExact_iff L, rightExact_iff L, PathInPlace]
  split_ifs with hsize
  · exact ⟨fun h p hp => ⟨h.1 p hp, h.2 p hp⟩,
      fun h => ⟨fun p hp => (h p hp).1, fun p hp => (h p hp).2⟩⟩
  · rfl

/-- Branches in order are always in place. -/
theorem pathInPlace_one (s : InnerSpec) (hfew : w.arity < 2 ^ 31) (positions : List (Fin w.arity)) :
    PathInPlace s 1 positions := by
  unfold PathInPlace
  split_ifs
  · exact fun p _ => ⟨.inr ⟨hfew, rfl, fun q hq => hq⟩,
      .inr ⟨hfew, rfl, fun q hq => hq, fun q hq => hq⟩⟩
  · refine ⟨fun p hfind => .inr (.inr fun q hq => ?_), fun p hfind => .inr (.inr fun q hq => ?_)⟩
    · have hsome := List.find?_some hfind
      have hfirst : ¬ (p : ℕ) = 0 := of_decide_eq_true hsome
      rw [Equiv.Perm.one_apply] at hq ⊢
      omega
    · have hsome := List.find?_some hfind
      have hlast : ¬ (p : ℕ) + 1 = w.arity := of_decide_eq_true hsome
      have hpos := p.isLt
      rw [Equiv.Perm.one_apply] at hq
      omega

/-- A live first child is not seen from the second branch, which stands last. -/
theorem not_outermostExact_merkOrder :
    let s := ternarySpec [0, 2, 1]
    let op : InnerOp := { hash := 1, prefix_ := [9, 7, 0], suffix := none }
    let pl : Place ternaryLayout := ⟨ternaryNode 7 0 5, (2 : Fin 3)⟩
    (HasLayout s ternaryLayout merkOrder ∧ op.cut = pl.cut ∧ isLeftMost s [op] = .ok true ∧
      ¬ pl.EmptyBefore merkOrder s.emptyChild) ∧
    ¬ OutermostExact s merkOrder [pl.position] := by
  intro s op pl
  have hcut : op.cut = pl.cut := by decide
  have hok : isLeftMost s [op] = .ok true := by decide
  have hlive : ¬ pl.EmptyBefore merkOrder s.emptyChild := by
    unfold Place.EmptyBefore
    decide
  refine ⟨⟨hasLayout_merkOrder, hcut, hok, hlive⟩, fun h => hlive ?_⟩
  have hpath : [op].map InnerOp.cut = [pl].map Place.cut := by rw [List.map_singleton, hcut]; rfl
  exact (h.1 [op] [pl] rfl hpath).1.1 hok pl List.mem_cons_self

/-- A step at the middle one of three branches in order. -/
theorem middlePosition_outermostExact :
    OutermostExact (w := ternaryLayout) (ternarySpec [0, 1, 2]) 1 [(1 : Fin 3)] :=
  (outermostExact_iff_pathInPlace hasLayout_inOrder _).2 (pathInPlace_one _ (by decide) _)

end Ics23.Go
