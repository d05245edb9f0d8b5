import Ics23.Openings
import Ics23.Proto

/-!
# Specs of binary trees

`BinarySpec spec inner R` says that a spec is one for trees with two children, hashed with SHA-256,
whose formats and child slots are those of the rules `R`.  The built-in specs of both
implementations have this shape; what they ask of prefixes is said elsewhere.
-/

namespace Ics23

/-- An inner spec for the children and prefixes that `w` describes. -/
structure BinaryShape (s : InnerSpec) (w : Slots) : Prop where
  childOrder : s.childOrder = [0, 1]
  childSize : s.childSize.toInt = w.child
  minPrefixLength : s.minPrefixLength.toInt = w.lo
  maxPrefixLength : s.maxPrefixLength.toInt = w.hi
  emptyChild : s.emptyChild = w.empty

/-- The leaf operation that a format asks for. -/
def leafOp (f : LeafFormat) (prefix_ : Bytes) : LeafOp where
  hash := 1
  prehashKey := if f.hashedKeys then 1 else 0
  prehashValue := 1
  length := if f.lengths then 1 else 0
  prefix_ := prefix_

structure BinarySpec (spec : ProofSpec) (inner : InnerSpec) (R : Rules) : Prop where
  leafSpec : spec.leafSpec = some (leafOp R.leaves [0])
  innerSpec : spec.innerSpec = some inner
  shape : BinaryShape inner R.slots
  innerHash : inner.hash = 1
  prehash : spec.prehashKeyBeforeComparison = R.leaves.hashedKeys

end Ics23
