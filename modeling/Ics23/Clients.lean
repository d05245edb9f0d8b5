import Ics23.Honest

/-!
# Clients of one store

A chain commits to a store: a tree of one of the three kinds, which is a map from keys to values.
Clients hold only its root.  Each of them runs one of the implementations and is given answers, each
with a proof: a key is bound to a value, or to nothing.  Whoever makes the answers, all that clients
accept are the answers of the map, unless strings that were hashed collide (`answers_eq_lookup`).
So no two clients can be made to believe different things of a key, whichever implementations they
run.
-/

namespace Ics23

open Outcome Logged

/-! ### Stores -/

/-- The tree that a root stands for. -/
inductive Store where
  | iavl (T : IavlTree)
  | tendermint (T : TendermintTree)
  | smt (T : SmtTree)

namespace TreeFormat

variable {E N L : Type} (F : TreeFormat E N L)

/-- The map that a tree is: the value of the leaf with a given key. -/
def lookup (T : BinTree E N L) (key : Bytes) : Option Bytes :=
  (T.leaves.find? fun l => F.key l = key).map F.value

variable {F} {T : BinTree E N L} {key : Bytes}

theorem lookup_eq_none (h : ∀ l ∈ T.leaves, F.key l ≠ key) : F.lookup T key = none := by
  unfold lookup
  rw [Option.map_eq_none_iff, List.find?_eq_none]
  simpa using h

theorem mem_of_lookup_eq_some {value : Bytes} (h : F.lookup T key = some value) :
    ∃ l ∈ T.leaves, F.key l = key ∧ F.value l = value := by
  obtain ⟨l, hl, hvalue⟩ := Option.map_eq_some_iff.1 h
  exact ⟨l, List.mem_of_find?_eq_some hl, by simpa using List.find?_some hl, hvalue⟩

/-- In a sorted tree no other leaf has the key. -/
theorem lookup_eq_some {H : HostFunctionsProvider} (sorted : F.Sorted H T) {l : L}
    (hl : l ∈ T.leaves) (hkey : F.key l = key) : F.lookup T key = some (F.value l) := by
  unfold lookup
  cases hfind : T.leaves.find? fun l => F.key l = key with
  | none => exact absurd hkey (by simpa using List.find?_eq_none.1 hfind l hl)
  | some m =>
    have hm : F.key m = key := by simpa using List.find?_some hfind
    have hinj : Set.InjOn (F.treeKey H) {x | x ∈ T.leaves} := by
      have hnodup : (T.leaves.map (F.treeKey H)).Nodup := by
        refine List.Pairwise.imp (fun hlt => ?_) sorted
        rintro rfl
        exact Std.lt_irrefl hlt
      exact List.inj_on_of_nodup_map hnodup
    have hsame : m = l := hinj (List.mem_of_find?_eq_some hfind) hl (by
      unfold treeKey
      rw [hm, hkey])
    rw [hsame, Option.map_some]

/-- What a root and the order of the keys are worth as long as the hash function is not broken on
the strings of `S`. -/
structure Secure (F : TreeFormat E N L) (H : HostFunctionsProvider) (R : Rules) (T : BinTree E N L)
    (S : Set Bytes) : Prop where
  format : F.Matches H R
  injOn : Set.InjOn H.sha S
  fresh : ∀ m ∈ S, ∀ e, H.sha m ≠ F.blank e
  strings : F.strings H T ⊆ S
  readable : F.Readable H R T
  sorted : F.Sorted H T
  empty : R.slots.EmptySound (F.nodes H) H.sha T

end TreeFormat

namespace Store

/-- The spec for proofs of the store. -/
def spec : Store → BuiltIn
  | iavl _ => .iavl
  | tendermint _ => .tendermint
  | smt _ => .smt

/-- The value of a key. -/
def lookup : Store → Bytes → Option Bytes
  | iavl T => iavlFormat.lookup T
  | tendermint T => tendermintFormat.lookup T
  | smt T => smtFormat.lookup T

variable (H : HostFunctionsProvider)

def root : Store → Bytes
  | iavl T => iavlFormat.root H T
  | tendermint T => tendermintFormat.root H T
  | smt T => smtFormat.root H T

/-- The strings that are hashed for the root. -/
def strings : Store → Set Bytes
  | iavl T => iavlFormat.strings H T
  | tendermint T => tendermintFormat.strings H T
  | smt T => smtFormat.strings H T

/-- The keys are in order, sparse trees having the order of the hashed keys.  The leaves of a
Tendermint tree can be read in one way only, which the other formats see to themselves. -/
def Ordered : Store → Prop
  | iavl T => T.Sorted IavlLeaf.key
  | tendermint T => T.Sorted KeyValue.key ∧ ∀ l ∈ T.leaves, ∀ k, l.ReadsAs k → k = l.key
  | smt T => T.Sorted fun l => H.sha l.key

/-- Two of the strings have the same digest or, for a sparse tree, one has that of a placeholder. -/
def Broken (S : Set Bytes) : Store → Prop
  | smt _ => H.ShaCollision S ∨ H.ZeroDigest S
  | _ => H.ShaCollision S

variable {H} {S : Set Bytes}

theorem tendermintFormat_readable {T : TendermintTree}
    (h : ∀ l ∈ T.leaves, ∀ k, l.ReadsAs k → k = l.key) :
    tendermintFormat.Readable H tendermintRules T := by
  intro l hl k hshows
  have hkey := h l hl k (tendermint_shows_iff.1 hshows)
  rw [hkey]
  rfl

theorem secure_iavl {T : IavlTree} (ordered : (iavl T).Ordered H) (hT : (iavl T).strings H ⊆ S)
    (h : ¬ (iavl T).Broken H S) : iavlFormat.Secure H BuiltIn.iavl.rules T S where
  format := iavlFormat_matches H
  injOn := H.injOn_sha h
  fresh := Rust.iavl_fresh
  strings := hT
  readable := iavlFormat_readable H T
  sorted := ordered
  empty := Slots.emptySound_of_empty_eq_nil H.length_sha iavlFormat.length_blank rfl T

theorem secure_tendermint {T : TendermintTree} (ordered : (tendermint T).Ordered H)
    (hT : (tendermint T).strings H ⊆ S) (h : ¬ (tendermint T).Broken H S) :
    tendermintFormat.Secure H BuiltIn.tendermint.rules T S where
  format := tendermintFormat_matches H
  injOn := H.injOn_sha h
  fresh := Rust.tendermint_fresh
  strings := hT
  readable := tendermintFormat_readable ordered.2
  sorted := ordered.1
  empty := tendermint_emptySound T

theorem secure_smt {T : SmtTree} (ordered : (smt T).Ordered H) (hT : (smt T).strings H ⊆ S)
    (h : ¬ (smt T).Broken H S) : smtFormat.Secure H BuiltIn.smt.rules T S := by
  obtain ⟨hcollision, hzero⟩ := not_or.1 h
  have fresh : ∀ m ∈ S, ∀ e, H.sha m ≠ smtFormat.blank e := fun m hm _ hz => hzero ⟨m, hm, hz⟩
  exact
    { format := smtFormat_matches H
      injOn := H.injOn_sha hcollision
      fresh := fresh
      strings := hT
      readable := smtFormat_readable T
      sorted := ordered
      empty := smt_emptySound fun m hm => fresh m (hT (TreeFormat.image_mem_strings hm)) () }

end Store

/-! ### Answers -/

/-- A proof for one of the implementations. -/
inductive Evidence where
  | rust (proof : Rust.CommitmentProof)
  | go (proof : Go.CommitmentProof)

/-- The same proof for the Rust crate. -/
def Evidence.toRust : Evidence → Rust.CommitmentProof
  | rust proof => proof
  | go proof => proof.toRust

/-- The claim that a key is bound to a value, or to nothing, with a proof. -/
structure Answer where
  key : Bytes
  value : Option Bytes
  evidence : Evidence

namespace Answer

variable (H : HostFunctionsProvider) (P : Rust.Prost) (spec : BuiltIn) (root : Bytes)

/-- A client with the root accepts the answer. -/
def Accepted (a : Answer) : Prop :=
  match a.evidence, a.value with
  | .rust proof, some value =>
    (Rust.verifyMembership H P proof spec.rustSpec root a.key value).out = .ok true
  | .rust proof, none =>
    (Rust.verifyNonMembership H P proof spec.rustSpec root a.key).out = .ok true
  | .go proof, some value =>
    (Go.verifyMembership H spec.goSpec root (some proof) a.key value).out = .ok true
  | .go proof, none =>
    (Go.verifyNonMembership H spec.goSpec root (some proof) a.key).out = .ok true

/-- The strings that the client hands to SHA-256. -/
def hashed (a : Answer) : List Bytes :=
  match a.evidence, a.value with
  | .rust proof, some value =>
    (Rust.verifyMembership H P proof spec.rustSpec root a.key value).log
  | .rust proof, none => (Rust.verifyNonMembership H P proof spec.rustSpec root a.key).log
  | .go proof, some value => (Go.verifyMembership H spec.goSpec root (some proof) a.key value).log
  | .go proof, none => (Go.verifyNonMembership H spec.goSpec root (some proof) a.key).log

variable {H P spec root}

/-- The same answer, given to a client that runs the Rust crate. -/
theorem Accepted.toRust {a : Answer} (h : a.Accepted H P spec root) {S : Set Bytes}
    (hS : ∀ q ∈ a.hashed H P spec root, q ∈ S) :
    match a.value with
    | some value => (Rust.verifyMembership H P a.evidence.toRust spec.rustSpec root a.key
        value).Yields true S
    | none => (Rust.verifyNonMembership H P a.evidence.toRust spec.rustSpec root a.key).Yields
        true S := by
  obtain ⟨key, value, evidence⟩ := a
  cases evidence with
  | rust proof =>
    cases value with
    | some value => exact ⟨h, hS⟩
    | none => exact ⟨h, hS⟩
  | go proof =>
    cases value with
    | some value =>
      obtain ⟨ex, hproof, hverify⟩ := Go.verifyMembership_yields_true.1 ⟨h, hS⟩
      obtain rfl := Option.some.inj hproof
      exact ((Go.verifyMembership_exist_iff H P spec).1 hverify).1
    | none =>
      obtain ⟨non, hproof, hverify⟩ := Go.verifyNonMembership_yields_true.1 ⟨h, hS⟩
      obtain rfl := Option.some.inj hproof
      exact ((Go.verifyNonMembership_nonexist_iff H P spec).1 hverify).1

section Trees

variable {E N L : Type} {F : TreeFormat E N L} {T : BinTree E N L} {S : Set Bytes}

/-- Where the hash function is not broken, accepted answers are those of the map. -/
theorem Accepted.eq_lookup (secure : F.Secure H spec.rules T S) {a : Answer}
    (h : a.Accepted H P spec (F.root H T)) (hS : ∀ q ∈ a.hashed H P spec (F.root H T), q ∈ S) :
    F.lookup T a.key = a.value := by
  have I := spec.implements P
  have hproof := h.toRust hS
  obtain ⟨M, inj, fresh, hT, hread, sorted, empty⟩ := secure
  obtain ⟨key, value, evidence⟩ := a
  cases value with
  | some value =>
    obtain ⟨l, hl, hkey, hvalue⟩ := I.mem_of_verifyMembership M inj fresh hT hread hproof
    rw [TreeFormat.lookup_eq_some sorted hl hkey, hvalue]
  | none =>
    have encloses := I.encloses_of_verifyNonMembership M inj fresh hT empty hproof
    exact TreeFormat.lookup_eq_none (TreeFormat.not_mem_of_encloses hread sorted encloses)

end Trees

end Answer

/-! ### Agreement -/

/-- What holds of answers where the hash function is not broken holds of them unless it is broken on
the strings of the store and of the clients. -/
theorem Store.forall_or_broken {H : HostFunctionsProvider} {P : Rust.Prost} {store : Store}
    {answers : List Answer} {p : Answer → Prop}
    (h : ∀ S : Set Bytes, store.strings H ⊆ S → ¬ store.Broken H S → ∀ a ∈ answers,
      (∀ q ∈ a.hashed H P store.spec (store.root H), q ∈ S) → p a) :
    (∀ a ∈ answers, p a) ∨ store.Broken H (store.strings H ∪
      {q | ∃ a ∈ answers, q ∈ a.hashed H P store.spec (store.root H)}) := by
  by_contra hnot
  obtain ⟨hsome, hbroken⟩ := not_or.1 hnot
  exact hsome fun a ha =>
    h _ Set.subset_union_left hbroken a ha fun q hq => .inr ⟨a, ha, hq⟩

/-- An answer that a client accepts is that of the map, where the hash function is not broken. -/
theorem Store.lookup_of_accepted {H : HostFunctionsProvider} {P : Rust.Prost} {store : Store}
    (ordered : store.Ordered H) {S : Set Bytes} (hT : store.strings H ⊆ S)
    (h : ¬ store.Broken H S) {a : Answer} (accepted : a.Accepted H P store.spec (store.root H))
    (hS : ∀ q ∈ a.hashed H P store.spec (store.root H), q ∈ S) : store.lookup a.key = a.value := by
  cases store with
  | iavl T => exact accepted.eq_lookup (secure_iavl ordered hT h) hS
  | tendermint T => exact accepted.eq_lookup (secure_tendermint ordered hT h) hS
  | smt T => exact accepted.eq_lookup (secure_smt ordered hT h) hS

variable (H : HostFunctionsProvider) (P : Rust.Prost)

/-- All answers that clients accept for the root of a store, whichever implementations they run and
whatever proofs they are given, are those of the map, unless the hash function is broken on the
strings that were hashed. -/
theorem answers_eq_lookup (store : Store) (ordered : store.Ordered H) (answers : List Answer)
    (accepted : ∀ a ∈ answers, a.Accepted H P store.spec (store.root H)) :
    (∀ a ∈ answers, store.lookup a.key = a.value) ∨
      store.Broken H (store.strings H ∪
        {q | ∃ a ∈ answers, q ∈ a.hashed H P store.spec (store.root H)}) :=
  Store.forall_or_broken fun _ hT h a ha hS =>
    Store.lookup_of_accepted ordered hT h (accepted a ha) hS

/-- A client that runs the Rust crate learns the value of the key `[1]`, and one that runs the Go
module that the key `[2]` is absent. -/
theorem iavlPair_accepted :
    let present := Rust.honestExistence iavlFormat .sha256Only iavlPair
      ([.left], ⟨1, [1], [10], by decide, by decide⟩)
    let absent := Go.honestNonExistence iavlFormat .sha256Only iavlPair [2]
    let answers : List Answer :=
      [⟨[1], some [10], .rust (.exist present)⟩, ⟨[2], none, .go (.nonexist (some absent))⟩]
    ∀ a ∈ answers,
      a.Accepted .sha256Only .leb128 .iavl ((Store.iavl iavlPair).root .sha256Only) := by
  intro present absent answers
  have M : iavlFormat.Matches .sha256Only BuiltIn.iavl.rules := iavlFormat_matches _
  refine List.forall_mem_cons.2 ⟨?_, List.forall_mem_singleton.2 ?_⟩
  · exact (Rust.iavlSpec_implements .leb128).verifyMembership_honest M Rust.iavlPair_valid rfl
  · exact (Go.verifyNonMembership_honest_iff M Rust.iavlPair_valid (fun l _ => iavl_leafExtra l)
      (fun _ _ _ => trivial) iavlPair_sorted iavlPair.leaves_ne_nil (iavl_fits iavlPair_shape)
      (by decide)).2 ⟨by decide, by decide⟩

theorem iavlPair_answers_eq_lookup :
    let store := Store.iavl iavlPair
    let root := store.root .sha256Only
    let present := Rust.honestExistence iavlFormat .sha256Only iavlPair
      ([.left], ⟨1, [1], [10], by decide, by decide⟩)
    let absent := Go.honestNonExistence iavlFormat .sha256Only iavlPair [2]
    let answers : List Answer :=
      [⟨[1], some [10], .rust (.exist present)⟩, ⟨[2], none, .go (.nonexist (some absent))⟩]
    (∀ a ∈ answers, store.lookup a.key = a.value) ∨
      store.Broken .sha256Only (store.strings .sha256Only ∪
        {q | ∃ a ∈ answers, q ∈ a.hashed .sha256Only .leb128 .iavl root}) :=
  answers_eq_lookup .sha256Only .leb128 (.iavl iavlPair) iavlPair_sorted _ iavlPair_accepted

end Ics23
