import Ics23.Lib.Computation
import Ics23.Lib.Sha256

/-!
# Hash functions

The hash functions, which both verifiers take from outside: the Rust crate through the trait
`HostFunctionsProvider`, the Go module from `crypto` and `golang.org/x/crypto`.
-/

namespace Ics23

/-- Byte arrays of a fixed length. -/
abbrev Digest (n : ℕ) := { b : Bytes // b.length = n }

theorem Digest.length_val {n : ℕ} (d : Digest n) : d.val.length = n := d.property

/-- The hash functions. -/
structure HostFunctionsProvider where
  sha2_256 : Bytes → Digest 32
  sha2_512 : Bytes → Digest 64
  sha2_512_truncated : Bytes → Digest 32
  keccak_256 : Bytes → Digest 32
  ripemd160 : Bytes → Digest 20
  blake2b_512 : Bytes → Digest 64
  blake2s_256 : Bytes → Digest 32
  blake3 : Bytes → Digest 32

namespace HostFunctionsProvider

variable (H : HostFunctionsProvider)

/-- The SHA-256 digest as a byte string. -/
def sha (m : Bytes) : Bytes := (H.sha2_256 m).val

@[simp] theorem length_sha (m : Bytes) : (H.sha m).length = 32 := (H.sha2_256 m).property

theorem sha_ne_nil (m : Bytes) : H.sha m ≠ [] := by
  intro h
  have := H.length_sha m
  rw [h] at this
  contradiction

/-- Two different strings of `S` have the same SHA-256 digest. -/
def ShaCollision (S : Set Bytes) : Prop := Collision H.sha2_256 S

/-- A string of `S` has the digest of a placeholder. -/
def ZeroDigest (S : Set Bytes) : Prop := ∃ q ∈ S, H.sha q = List.replicate 32 0

theorem injOn_sha {S : Set Bytes} (h : ¬ H.ShaCollision S) : Set.InjOn H.sha S := by
  intro a ha b hb e
  exact not_collision_iff.1 h ha hb (Subtype.ext e)

theorem not_shaCollision_of_list {l : List Bytes}
    (h : ∀ a ∈ l, ∀ b ∈ l, H.sha a = H.sha b → a = b) : ¬ H.ShaCollision {q | q ∈ l} := by
  rintro ⟨a, ha, b, hb, hne, e⟩
  exact hne (h a ha b hb (congrArg Subtype.val e))

/-- The result of a run whose queries all have different digests, in one evaluation of the run. -/
theorem out_and_not_shaCollision {π ε α : Type} {run : Logged Bytes π ε α} {out : Outcome π ε α}
    (h : run.out = out ∧ ∀ a ∈ run.log, ∀ b ∈ run.log, H.sha a = H.sha b → a = b) :
    run.out = out ∧ ¬ H.ShaCollision {q | q ∈ run.log} :=
  ⟨h.1, H.not_shaCollision_of_list h.2⟩

theorem not_shaCollision_union {l l' : List Bytes}
    (h : ∀ a ∈ l ++ l', ∀ b ∈ l ++ l', H.sha a = H.sha b → a = b) :
    ¬ H.ShaCollision ({q | q ∈ l} ∪ {q | q ∈ l'}) := fun hc =>
  H.not_shaCollision_of_list h (hc.mono fun _ hq => List.mem_append.2 hq)

/-- The real SHA-256; none of the built-in specs uses another hash function. -/
def sha256Only : HostFunctionsProvider where
  sha2_256 := Sha256.digest
  sha2_512 _ := ⟨List.replicate 64 0, rfl⟩
  sha2_512_truncated _ := ⟨List.replicate 32 0, rfl⟩
  keccak_256 _ := ⟨List.replicate 32 0, rfl⟩
  ripemd160 _ := ⟨List.replicate 20 0, rfl⟩
  blake2b_512 _ := ⟨List.replicate 64 0, rfl⟩
  blake2s_256 _ := ⟨List.replicate 32 0, rfl⟩
  blake3 _ := ⟨List.replicate 32 0, rfl⟩

end HostFunctionsProvider

end Ics23
