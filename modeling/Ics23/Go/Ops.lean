import Ics23.Go.Specs

/-!
# Leaf and inner operations of the Go module

The functions of `ops.go`.
-/

namespace Ics23.Go

variable (H : HostFunctionsProvider)

/-! ## Prefixes -/

/-- `binary.ReadVarint`: the value, and what is left in the reader. -/
def readVarint (r : Bytes) : Result (ℤ × Bytes) :=
  match Leb128.decodeSigned r with
  | some x => .ok x
  | none =>
    if r = [] then fail "EOF"
    else if r.length < 10 then fail "unexpected EOF"
    else fail "binary: varint overflows a 64-bit integer"

/-- The arguments are the prefix and the hash of a leaf or inner op. -/
def validateIavlOps (prefix_ : Bytes) (hash : Int32) (layerNum : ℤ) : Result Unit := do
  let (height, r) ← wrap "failed to read IAVL height varint: " (readVarint prefix_)
  ensure (¬ (height < 0 ∨ height < layerNum))
    ("IAVL height (" ++ toString height ++ ") must be non-negative and greater than or equal to " ++
      "the layer number (" ++ toString layerNum ++ ")")
  let (size, r) ← wrap "failed to read IAVL size varint: " (readVarint r)
  ensure (¬ size < 0) "IAVL size must be non-negative"
  let (version, r) ← wrap "failed to read IAVL version varint: " (readVarint r)
  ensure (¬ version < 0) "IAVL version must be non-negative"
  let remLen := r.length
  if layerNum = 0 then do
    ensure (remLen = 0) ("expected remaining prefix length to be 0, got: " ++ toString remLen)
    ensure (height = 0) ("expected leaf node height to be 0, got: " ++ toString remLen)
    ensure (size = 1) ("expected leaf node size to be 1, got: " ++ toString remLen)
  else do
    ensure (remLen = 1 ∨ remLen = 34)
      ("remainder of prefix must be of length 1 or 34, got: " ++ toString remLen)
    ensure (hash = 1) "IAVL hash op must be SHA256"

def validateTendermintOps (op : InnerOp) : Result Unit := do
  ensure (op.prefix_ ≠ []) "inner op prefix must not be empty"
  let innerPrefix : Bytes := [1]
  ensure (op.suffix ≠ none → op.prefix_ = innerPrefix)
    ("expected inner op prefix: [1], got: " ++ formatSlice (op.prefix_.map toString))
  ensure (hasPrefix op.prefix_ innerPrefix)
    ("expected inner op prefix to begin with: [1], got: " ++
      formatSlice ((op.prefix_.take 1).map toString))

/-! ## Hashes and lengths -/

def doHash (hashOp : Int32) (preimage : Bytes) : Hashing Bytes :=
  match HashOp.ofInt32 hashOp with
  | some .sha256 => .query preimage (H.sha preimage)
  | some .sha512 => pure (H.sha2_512 preimage).val
  | some .ripemd160 => pure (H.ripemd160 preimage).val
  | some .bitcoin => do
    let tmp ← .query preimage (H.sha preimage)
    pure (H.ripemd160 tmp).val
  | some .sha512256 => pure (H.sha2_512_truncated preimage).val
  | some .blake2b512 => pure (H.blake2b_512 preimage).val
  | some .blake2s256 => pure (H.blake2s_256 preimage).val
  | _ => fail ("unsupported hashop: " ++ toString hashOp)

def doHashOrNoop (hashOp : Int32) (preimage : Bytes) : Hashing Bytes :=
  if hashOp = 0 then pure preimage else doHash H hashOp preimage

/-- The loop emits seven bits at a time, as long as there are more. -/
def encodeVarintProto (l : ℕ) : Bytes :=
  if 2 ^ 7 ≤ l then UInt8.ofNat (l &&& 0x7f ||| 0x80) :: encodeVarintProto (l >>> 7)
  else [UInt8.ofNat l]
termination_by l
decreasing_by rw [Nat.shiftRight_eq_div_pow]; omega

def doLengthOp (lengthOp : Int32) (data : Bytes) : Result Bytes :=
  match LengthOp.ofInt32 lengthOp with
  | some .noPrefix => .ok data
  | some .varProto => .ok (encodeVarintProto data.length ++ data)
  | some .require32Bytes => do
    ensure (data.length = 32) ("data was " ++ toString data.length ++ " bytes, not 32")
    return data
  | some .require64Bytes => do
    ensure (data.length = 64) ("data was " ++ toString data.length ++ " bytes, not 64")
    return data
  | some .fixed32Big => .ok (beBytes 4 (data.length % 2 ^ 32) ++ data)
  | some .fixed32Little => .ok (leBytes 4 (data.length % 2 ^ 32) ++ data)
  | some .fixed64Big => .ok (beBytes 8 (data.length % 2 ^ 64) ++ data)
  | some .fixed64Little => .ok (leBytes 8 (data.length % 2 ^ 64) ++ data)
  | _ => fail ("unsupported lengthop: " ++ toString lengthOp)

def prepareLeafData (hashOp lengthOp : Int32) (data : Bytes) : Hashing Bytes := do
  let hdata ← doHashOrNoop H hashOp data
  doLengthOp lengthOp hdata

/-! ## Applying operations -/

def LeafOp.apply (op : LeafOp) (key value : Bytes) : Hashing Bytes := do
  ensure (key ≠ []) "leaf op needs key"
  ensure (value ≠ []) "leaf op needs value"
  let pkey ← (prepareLeafData H op.prehashKey op.length key).mapErr ("prehash key, " ++ ·)
  let pvalue ← (prepareLeafData H op.prehashValue op.length value).mapErr ("prehash value, " ++ ·)
  doHash H op.hash (op.prefix_ ++ pkey ++ pvalue)

def InnerOp.apply (op : InnerOp) (child : Bytes) : Hashing Bytes := do
  ensure (child ≠ []) "inner op needs child value"
  doHash H op.hash (op.prefix_ ++ child ++ op.suffix.bytes)

/-! ## Checking operations -/

def LeafOp.checkAgainstSpec (op : LeafOp) (spec : ProofSpec) : Result Unit :=
  match spec.leafSpec with
  | none => fail "spec.LeafSpec must be non-nil"
  | some lspec => do
    checkIf (specEquals spec iavlSpec) (validateIavlOps op.prefix_ op.hash 0)
    ensure (op.hash = lspec.hash) ("unexpected HashOp: " ++ toString op.hash)
    ensure (op.prehashKey = lspec.prehashKey)
      ("unexpected PrehashKey: " ++ toString op.prehashKey)
    ensure (op.prehashValue = lspec.prehashValue)
      ("unexpected PrehashValue: " ++ toString op.prehashValue)
    ensure (op.length = lspec.length) ("unexpected LengthOp: " ++ toString op.length)
    ensure (hasPrefix op.prefix_ lspec.prefix_)
      ("leaf Prefix doesn't start with " ++ formatHex lspec.prefix_)

/-- `b` is the layer of the op, the one next to the leaf being 1. -/
def InnerOp.checkAgainstSpec (op : InnerOp) (spec : ProofSpec) (b : ℤ) : Result Unit :=
  match spec.innerSpec, spec.leafSpec with
  | none, _ => fail "spec.InnerSpec must be non-nil"
  | some _, none => fail "spec.LeafSpec must be non-nil"
  | some innerSpec, some leafSpec => do
    ensure (op.hash = innerSpec.hash) ("unexpected HashOp: " ++ toString op.hash)
    checkIf (specEquals spec iavlSpec) (validateIavlOps op.prefix_ op.hash b)
    checkIf (specEquals spec tendermintSpec) (validateTendermintOps op)
    ensure (¬ hasPrefix op.prefix_ leafSpec.prefix_)
      ("inner Prefix starts with " ++ formatHex leafSpec.prefix_)
    ensure (¬ op.prefix_.length < innerSpec.minPrefixLength.toInt)
      ("innerOp prefix too short (" ++ toString op.prefix_.length ++ ")")
    let maxLeftChildBytes :=
      int (((innerSpec.childOrder.length : ℤ) - 1) * innerSpec.childSize.toInt)
    ensure (¬ op.prefix_.length > int (innerSpec.maxPrefixLength.toInt + maxLeftChildBytes))
      ("innerOp prefix too long (" ++ toString op.prefix_.length ++ ")")
    ensure (¬ innerSpec.childSize ≤ 0) "spec.InnerSpec.ChildSize must be >= 1"
    -- this sum is an `int32`, and wraps around at 32 bits
    ensure (¬ innerSpec.maxPrefixLength ≥ innerSpec.minPrefixLength + innerSpec.childSize)
      ("spec.InnerSpec.MaxPrefixLength must be < " ++
        "spec.InnerSpec.MinPrefixLength + spec.InnerSpec.ChildSize")
    let rest ← remInt op.suffix.bytes.length innerSpec.childSize.toInt
    ensure (rest = 0) "InnerOp suffix malformed"

end Ics23.Go
