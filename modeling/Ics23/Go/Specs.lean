import Ics23.Go.Messages

/-!
# The built-in specs of the Go module

The specs of `proof.go`, and the test that recognises them.
-/

namespace Ics23.Go

def iavlInnerSpec : InnerSpec where
  childOrder := [0, 1]
  minPrefixLength := 4
  maxPrefixLength := 12
  childSize := 33
  emptyChild := []
  hash := 1

def iavlSpec : ProofSpec where
  leafSpec := some
    { prefix_ := [0]
      prehashKey := 0
      hash := 1
      prehashValue := 1
      length := 1 }
  innerSpec := some iavlInnerSpec
  maxDepth := 0
  minDepth := 0
  prehashKeyBeforeComparison := false

def tendermintInnerSpec : InnerSpec where
  childOrder := [0, 1]
  minPrefixLength := 1
  maxPrefixLength := 1
  childSize := 32
  emptyChild := []
  hash := 1

def tendermintSpec : ProofSpec where
  leafSpec := some
    { prefix_ := [0]
      prehashKey := 0
      hash := 1
      prehashValue := 1
      length := 1 }
  innerSpec := some tendermintInnerSpec
  maxDepth := 0
  minDepth := 0
  prehashKeyBeforeComparison := false

def smtInnerSpec : InnerSpec where
  childOrder := [0, 1]
  childSize := 32
  minPrefixLength := 1
  maxPrefixLength := 1
  emptyChild := List.replicate 32 0
  hash := 1

def smtSpec : ProofSpec where
  leafSpec := some
    { hash := 1
      prehashKey := 1
      prehashValue := 1
      length := 0
      prefix_ := [0] }
  innerSpec := some smtInnerSpec
  maxDepth := 256
  minDepth := 0
  prehashKeyBeforeComparison := true

def leafSpecEquals (p spec : Option LeafOp) : Bool :=
  match p, spec with
  | some p, some spec =>
    p.hash == spec.hash && p.prehashKey == spec.prehashKey &&
      p.prehashValue == spec.prehashValue && p.length == spec.length
  | none, none => true
  | _, _ => false

def innerSpecEquals (p spec : Option InnerSpec) : Bool :=
  match p, spec with
  | some p, some spec =>
    p.hash == spec.hash && p.minPrefixLength == spec.minPrefixLength &&
      p.maxPrefixLength == spec.maxPrefixLength && p.childSize == spec.childSize &&
      p.childOrder.length == spec.childOrder.length
  | none, none => true
  | _, _ => false

def specEquals (p spec : ProofSpec) : Bool :=
  leafSpecEquals p.leafSpec spec.leafSpec && innerSpecEquals p.innerSpec spec.innerSpec

end Ics23.Go
