import OneWay.Circuit.Graph
import OneWay.Graph.Clifford
import OneWay.Graph.Composition
import OneWay.Graph.Random
import OneWay.Pattern.Compile
import OneWay.Pattern.Runnable
import OneWay.Proofs.Compile
import OneWay.Register.Basic
import OneWay.Schedule.Solve
import OneWay.Proofs.Runnable
import OneWay.Proofs.Exact
import OneWay.Proofs.State
import OneWay.Proofs.Growth
import OneWay.Proofs.Meaning
import OneWay.Proofs.Pipeline
import OneWay.Proofs.Frame
import OneWay.Proofs.Stabilizer
import OneWay.Proofs.Determinism
import OneWay.Proofs.Contents
import OneWay.Proofs.Resource
import OneWay.Proofs.Times
import OneWay.Proofs.Scheduled
import OneWay.Proofs.Solution
import OneWay.Proofs.Sequence
import OneWay.Proofs.Space
import OneWay.Proofs.Roles
import OneWay.Proofs.Axes
import OneWay.Proofs.Refinement
import OneWay.Proofs.Focus
import OneWay.Proofs.Transition
import OneWay.Proofs.Association
import OneWay.Proofs.LocalProduct
import OneWay.Proofs.Logical
import OneWay.Proofs.Expansion
import OneWay.Proofs.Causality
import OneWay.Proofs.Compression
import OneWay.Proofs.Renumbering
import OneWay.Proofs.Normalization
import OneWay.Proofs.Decomposition
import OneWay.Proofs.Expanded
import OneWay.Proofs.Transfer
import OneWay.Proofs.BasisImage
import OneWay.Proofs.Beside
import OneWay.Proofs.Admissible
import OneWay.Proofs.CircuitFlow
import OneWay.Proofs.Dependants
import OneWay.Proofs.Ranking
import OneWay.Proofs.Feasibility
import OneWay.Proofs.Liveness
import OneWay.Proofs.Checks
import OneWay.Proofs.Product
import OneWay.Proofs.Entangling
import OneWay.Proofs.Parity
import OneWay.Proofs.OddNeighbors
import OneWay.Proofs.RandomFlow
import OneWay.Proofs.Settling
import OneWay.Proofs.InputChains
import OneWay.Proofs.Orthonormal
import OneWay.Proofs.Increments
import OneWay.Proofs.Tolerance
