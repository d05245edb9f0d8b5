import Ics23.Lib.Computation
import Ics23.Lib.Leb128
import Ics23.Lib.Sha256
import Ics23.Lib.BinTree
import Ics23.Lib.MerkleTree
import Ics23.Hashes
import Ics23.Proto
import Ics23.Slots
import Ics23.Openings
import Ics23.BinarySpec
import Ics23.Trees
import Ics23.Iavl
import Ics23.Plain
import Ics23.Rust.Messages
import Ics23.Rust.Ops
import Ics23.Rust.Specs
import Ics23.Rust.Verify
import Ics23.Rust.Api
import Ics23.Rust.Binary
import Ics23.Rust.Neighbors
import Ics23.Rust.Refinement
import Ics23.Rust.Membership
import Ics23.Rust.Iavl
import Ics23.Rust.Smt
import Ics23.Rust.Tendermint
import Ics23.Rust.Panics
import Ics23.Go.Messages
import Ics23.Go.Specs
import Ics23.Go.Ops
import Ics23.Go.Proof
import Ics23.Go.Capacity
import Ics23.Go.Binary
import Ics23.Go.Refinement
import Ics23.Go.BuiltIn
import Ics23.Go.Panics
import Ics23.Agreement
import Ics23.Lib.Interning
import Ics23.Rust.Compress
import Ics23.Rust.Batch
import Ics23.Rust.Decompress
import Ics23.Depth
import Ics23.Lib.SlotNode
import Ics23.Roots
import Ics23.Rust.Preimages
import Ics23.Places
import Ics23.Rust.Places
import Ics23.Go.Places
import Ics23.Go.Outermost
import Ics23.Rust.Headers
import Ics23.Headers
import Ics23.Rust.Lengths
import Ics23.Rust.Children
import Ics23.Rust.Overflow
import Ics23.Rust.Branches
import Ics23.Go.Calculate
import Ics23.Go.Exact
import Ics23.Lib.Loops
import Ics23.Lib.Wire
import Ics23.Go.Pb
import Ics23.Difference
import Ics23.Lib.Balanced
import Ics23.Honest
import Ics23.Clients
import Ics23.Unique
import Ics23.Rust.BatchApi
import Ics23.Go.Marshal
import Ics23.Go.Unmarshal
import Ics23.Go.Reading
import Ics23.Go.RoundTrip
import Ics23.Go.Codec
import Ics23.Go.Transport
import Ics23.Lib.Record
import Ics23.Lib.Base64
import Ics23.Rust.Serde
import Ics23.Rust.SerdeMessages
import Ics23.Rust.SerdeRoundTrip
import Ics23.Rust.SerdeValid
import Ics23.Rust.Json
