import Ics23.Rust.Messages

/-!
# Applying leaf and inner operations

The functions of `ops.rs`.
-/

namespace Ics23.Rust

variable (H : HostFunctionsProvider) (P : Prost)

def doHash (hash : HashOp) (data : Bytes) : Hashing Bytes :=
  match hash with
  | .noHash => pure data
  | .sha256 => .query data (H.sha data)
  | .sha512 => pure (H.sha2_512 data).val
  | .keccak256 => pure (H.keccak_256 data).val
  | .ripemd160 => pure (H.ripemd160 data).val
  | .bitcoin => do
    let h ← .query data (H.sha data)
    pure (H.ripemd160 h).val
  | .sha512256 => pure (H.sha2_512_truncated data).val
  | .blake2b512 => pure (H.blake2b_512 data).val
  | .blake2s256 => pure (H.blake2s_256 data).val
  | .blake3 => pure (H.blake3 data).val

/-- The varint of a length.  The conversion from `usize` to `u64` never fails. -/
def protoLen (length : ℕ) : Bytes := P.encodeVarint length

def doLength (length : LengthOp) (data : Bytes) : Result Bytes :=
  match length with
  | .noPrefix => .ok data
  | .require32Bytes => do
    ensure (data.length = 32) "Invalid length"
    return data
  | .require64Bytes => do
    ensure (data.length = 64) "Invalid length"
    return data
  | .varProto => .ok (protoLen P data.length ++ data)
  | .fixed32Big => .ok (beBytes 4 (data.length % 2 ^ 32) ++ data)
  | .fixed32Little => .ok (leBytes 4 (data.length % 2 ^ 32) ++ data)
  | .fixed64Big => .ok (beBytes 8 (data.length % 2 ^ 64) ++ data)
  | .fixed64Little => .ok (leBytes 8 (data.length % 2 ^ 64) ++ data)
  | .varRlp => bail "Unsupported LengthOp VarRlp"

def prepareLeafData (prehash : HashOp) (length : LengthOp) (data : Bytes) : Hashing Bytes := do
  ensure (data ≠ []) "Input to prepare_leaf_data missing"
  let h ← doHash H prehash data
  doLength P length h

def applyLeaf (leaf : LeafOp) (key value : Bytes) : Hashing Bytes := do
  let prekey ← prepareLeafData H P (hashOpOf leaf.prehashKey) (lengthOpOf leaf.length) key
  let preval ← prepareLeafData H P (hashOpOf leaf.prehashValue) (lengthOpOf leaf.length) value
  doHash H (hashOpOf leaf.hash) (leaf.prefix_ ++ prekey ++ preval)

def applyInner (inner : InnerOp) (child : Bytes) : Hashing Bytes := do
  ensure (child ≠ []) "Missing child hash"
  doHash H (hashOpOf inner.hash) (inner.prefix_ ++ child ++ inner.suffix)

end Ics23.Rust
