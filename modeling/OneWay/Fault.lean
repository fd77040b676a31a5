/-! Why an operation is refused. Each cause is a constructor; the wording is in `message?` alone. A
look-up or a shape that fails speaks for itself and has no wording. -/
namespace OneWay

inductive Fault where
  -- open graphs
  | nodeAbsent (node : Int)
  | edgePresent (a b : Int)
  | edgeAbsent
  | selfLoop
  | inputRemoved
  | inputTwice
  | outputTwice
  | outputMeasured
  | logicalAbsent
  | logicalTaken
  | basisOnOutput
  | basisMissing (node : Int)
  | sidesOverlap
  | firstNotCanonical
  | secondNotCanonical
  | interfacesDiffer
  | notCanonical
  -- bases and local unitaries
  | planeUnknown
  | axisUnknown
  | notClifford
  | offPlanes
  | infiniteAngle
  | notSquare
  | divisionByZero
  -- correction flows
  | notFlow
  | notZFlow
  | cyclePair (node child : Int)
  | cyclic
  | notASet
  | notInOrder
  | nothingToChoose
  | stillUnfocused
  -- schedules
  | strategyUnknown (name : String)
  -- registers
  | sizeNotPowerOfTwo
  | negativeQubits
  | negativeCount
  | notHermitian
  | permutationLength
  -- look-ups and shapes
  | keyAbsent
  | indexOutOfRange
  | wrongShape
  | stepZero
  deriving DecidableEq, Repr

def Fault.message? : Fault → Option String
  | .nodeAbsent node => some s!"Node does not exist node={node}"
  | .edgePresent a b => some s!"Edge already exists node1={a}, node2={b}"
  | .edgeAbsent => some "Edge does not exist"
  | .selfLoop => some "Self-loops are not allowed"
  | .inputRemoved => some "The input node cannot be removed"
  | .inputTwice => some "The node is already registered as an input node."
  | .outputTwice => some "The node is already registered as an output node."
  | .outputMeasured => some "Cannot set output node with measurement basis."
  | .logicalAbsent => some "The q_index does not exist in input qubit indices"
  | .logicalTaken => some "The q_index already exists in output qubit indices"
  | .basisOnOutput => some "Cannot set measurement basis for output node."
  | .basisMissing node => some s!"Measurement basis not set for node {node}"
  | .sidesOverlap => some "The two sets of nodes must be disjoint."
  | .firstNotCanonical => some "graph1 must be in canonical form."
  | .secondNotCanonical => some "graph2 must be in canonical form."
  | .interfacesDiffer =>
      some "Logical qubit indices of output nodes in graph1 must match input nodes in graph2."
  | .notCanonical => some "Graph state must be in canonical form."
  | .planeUnknown => some "The plane must be one of XY, YZ, XZ"
  | .axisUnknown => some "The axis must be one of X, Y, Z"
  | .notClifford => some "The angles must be integer multiples of pi/2"
  | .offPlanes => some "The vector does not lie on any of 3 planes"
  | .notFlow => some "Invalid flowlike object"
  | .notZFlow => some "Invalid zflow object"
  | .cyclePair node child => some s!"Cycle detected in the graph: {node} -> {child}"
  | .strategyUnknown name => some s!"Unknown scheduling strategy: {name}"
  | .sizeNotPowerOfTwo => some "State vector must have a size that is a power of 2."
  | .negativeQubits => some "Number of qubits must be non-negative."
  | .notHermitian => some "Operator must be Hermitian"
  | .permutationLength => some "Permutation length must match the number of indices."
  | .infiniteAngle | .notSquare | .divisionByZero | .cyclic | .notASet | .notInOrder
  | .nothingToChoose | .stillUnfocused | .negativeCount | .keyAbsent | .indexOutOfRange
  | .wrongShape | .stepZero => none

end OneWay
