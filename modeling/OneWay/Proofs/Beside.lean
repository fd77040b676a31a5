import OneWay.Proofs.Joining
import OneWay.Proofs.Logical
import OneWay.Proofs.Transition

/-! Two graphs side by side. Every node of either graph has a copy of its own with its basis, the edges are
the renamed edges of both graphs, and the qubits of the second graph follow those of the first. Nothing is
refused where the outputs of both graphs have numbers of inputs. -/
namespace OneWay.Graph
variable {R : Type} [Scalar R] {source first second g next : Graph R} {names names1 names2 : Table Int}
  {a b n v : Int} {c : Composition R}

structure Copied (source g : Graph R) (names : Table Int) : Prop where
  keys : ∀ n, n ∈ names.keys ↔ n ∈ source.nodes
  apart : ∀ a b v, names.get? a = some v → names.get? b = some v → a = b
  there : ∀ n v, names.get? n = some v → v ∈ g.nodes
  bases : ∀ n v, names.get? n = some v → g.bases.get? v = source.bases.get? n

namespace Copied
variable (copied : Copied source g names)
include copied

theorem own (node : n ∈ source.nodes) : names.get? n = some (named names n) :=
  getNamed ((copied.keys n).mpr node)

theorem move (keys : ∀ n ∈ g.nodes, n ∈ next.nodes)
    (bases : ∀ n ∈ g.nodes, next.bases.get? n = g.bases.get? n) : Copied source next names where
  keys := copied.keys
  apart := copied.apart
  there n v found := keys v (copied.there n v found)
  bases n v found := (bases v (copied.there n v found)).trans (copied.bases n v found)

theorem same (nodes : next.nodes = g.nodes) (bases : next.bases = g.bases) :
    Copied source next names :=
  copied.move (fun n here => nodes ▸ here) fun n _ => by rw [bases]

theorem renames : Renames source g names where
  there n node := ⟨copied.own node, copied.there n _ (copied.own node)⟩
  apart a nodeA b nodeB eq := copied.apart a b _ (copied.own nodeA) (eq ▸ copied.own nodeB)

theorem outputFree (sound : source.Sound) (output : n ∈ source.outputs.keys) :
    named names n ∉ g.bases.keys := by
  have node := sound.outputsThere n output
  rw [← Table.getNone, copied.bases n _ (copied.own node), Table.getNone]
  exact sound.outputsFree n output

theorem measuredBased (based : ∀ n ∈ source.innerNodes, n ∈ source.bases.keys)
    (outputs : ∀ n ∈ source.outputs.keys, named names n ∈ g.outputs.keys) (found : names.get? n = some v)
    (measured : v ∉ g.outputs.keys) : v ∈ g.bases.keys := by
  have node := (copied.keys n).mp (Table.memKeys.mpr ⟨v, found⟩)
  have inner : n ∉ source.outputs.keys := fun output => measured (namedGet found ▸ outputs n output)
  obtain ⟨basis, here⟩ := Table.memKeys.mp (based n (memInnerNodes.mpr ⟨node, inner⟩))
  exact Table.memKeys.mpr ⟨basis, (copied.bases n v found).trans here⟩

end Copied

theorem Copies.copied {target : Graph R} (copies : Copies source target g names)
    (keys : ∀ n, n ∈ names.keys ↔ n ∈ source.nodes) : Copied source g names where
  keys := keys
  apart := copies.apart
  there n v found := (copies.keys v).mpr (.inr ⟨n, found⟩)
  bases := copies.based

structure Beside (first second : Graph R) (c : Composition R) : Prop where
  copied1 : Copied first c.graph c.first
  copied2 : Copied second c.graph c.second
  apart : ∀ a b v, c.first.get? a = some v → c.second.get? b ≠ some v
  nodes : ∀ v, v ∈ c.graph.nodes ↔ (∃ n, c.first.get? n = some v) ∨ ∃ n, c.second.get? n = some v
  edges : c.graph.edges.Perm (first.edges.map (relink c.first) ++ second.edges.map (relink c.second))
  inputs : c.graph.inputs.entries = first.inputs.entries.map (fun e => (named c.first e.1, e.2)) ++
    second.inputs.entries.map fun e => (named c.second e.1, e.2 + (first.inputs.size : Int))
  outputs : c.graph.outputs.entries = first.outputs.entries.map (fun e => (named c.first e.1, e.2)) ++
    second.outputs.entries.map fun e => (named c.second e.1, e.2 + (first.inputs.size : Int))
  cliffords : c.graph.cliffords = ∅

section
variable (sound1 : first.Sound) (sound2 : second.Sound) (copied1 : Copied first g names1)
  (copied2 : Copied second g names2) (apart : ∀ a b v, names1.get? a = some v → names2.get? b ≠ some v)
include sound1 sound2 copied1 copied2 apart

omit sound1 sound2 in
theorem namesApart (nodeA : a ∈ first.nodes) (nodeB : b ∈ second.nodes) :
    named names1 a ≠ named names2 b := fun eq =>
  apart a b _ (copied1.own nodeA) (eq ▸ copied2.own nodeB)

theorem inputsBeside (roles1 : first.Roles) (roles2 : second.Roles) (none : g.inputs = ∅) :
    ∃ mid qubits1 inputs qubits2, copyInputs first names1 g = .ok (mid, qubits1) ∧
      copyInputs second names2 mid = .ok ({ g with inputs := inputs }, qubits2) ∧
      inputs.entries = first.inputs.entries.map (fun e => (named names1 e.1, e.2)) ++
        second.inputs.entries.map (fun e => (named names2 e.1, e.2 + (first.inputs.size : Int))) ∧
      (∀ q ∈ first.inputs.values, qubits1.get? q = some q) ∧
      ∀ q ∈ second.inputs.values, qubits2.get? q = some (q + first.inputs.size) := by
  obtain ⟨⟨mid, qubits1⟩, ok1⟩ := copyInputsTotal sound1 copied1.renames (by simp [none])
  obtain ⟨_, _, _, found1⟩ := copyInputsAfter roles1 ok1
  obtain ⟨inputs1, rfl, entries1⟩ := copyInputsOk roles1 none ok1
  have size : inputs1.size = first.inputs.size := by
    rw [Table.size, entries1, List.length_map, Table.size]
  have fresh : ∀ n ∈ second.inputs.keys, named names2 n ∉ inputs1.keys := by
    intro n input taken
    rw [Table.keys, entries1, List.map_map, List.mem_map] at taken
    obtain ⟨e, mem, eq⟩ := taken
    exact namesApart copied1 copied2 apart (sound1.inputsThere e.1 (List.mem_map_of_mem mem))
      (sound2.inputsThere n input) eq
  have moved : Copied second { g with inputs := inputs1 } names2 := copied2.same rfl rfl
  obtain ⟨⟨next, qubits2⟩, ok2⟩ := copyInputsTotal sound2 moved.renames fresh
  obtain ⟨inputs2, rfl, entries2, found2⟩ := copyInputsAfter roles2 ok2
  rw [entries1, size] at entries2
  rw [size] at found2
  refine ⟨_, qubits1, inputs2, qubits2, ok1, ok2, entries2, fun q value => ?_, found2⟩
  have zero : ((∅ : Table Int).size : Int) = 0 := rfl
  rw [found1 q value, none, zero, Int.add_zero]

theorem outputsBeside {qubits1 qubits2 : Table Int} (roles1 : first.Roles) (roles2 : second.Roles)
    (within1 : ∀ q ∈ first.outputs.values, q ∈ first.inputs.values)
    (within2 : ∀ q ∈ second.outputs.values, q ∈ second.inputs.values)
    (found1 : ∀ q ∈ first.inputs.values, qubits1.get? q = some q)
    (found2 : ∀ q ∈ second.inputs.values, qubits2.get? q = some (q + first.inputs.size))
    (size : g.inputs.size = first.inputs.size + second.inputs.size) (none : g.outputs = ∅) :
    ∃ mid outputs, copyOutputs first names1 (lookUp qubits1) g = .ok mid ∧
      copyOutputs second names2 (lookUp qubits2) mid = .ok { g with outputs := outputs } ∧
      outputs.entries = first.outputs.entries.map (fun e => (named names1 e.1, e.2)) ++
        second.outputs.entries.map (fun e => (named names2 e.1, e.2 + (first.inputs.size : Int))) := by
  have renamed1 (q : Int) (value : q ∈ first.outputs.values) : lookUp qubits1 q = .ok (id q) :=
    lookUpOk.mpr (found1 q (within1 q value))
  have renamed2 (q : Int) (value : q ∈ second.outputs.values) :
      lookUp qubits2 q = .ok (q + (first.inputs.size : Int)) :=
    lookUpOk.mpr (found2 q (within2 q value))
  obtain ⟨mid, ok1⟩ : ∃ mid, copyOutputs first names1 (lookUp qubits1) g = .ok mid := by
    refine copyOutputsTotal id sound1 copied1.renames renamed1 ?_ ?_ ?_ fun n output => ?_
    · rw [List.map_id]
      exact roles1.outputsOnce
    · intro q value
      have below := roles1.outputsBelow q value
      rw [size, id]
      omega
    · intro q _
      rw [none]
      exact List.not_mem_nil
    · exact ⟨by simp [none], copied1.outputFree sound1 output⟩
  obtain ⟨outputs1, rfl, entries1⟩ := copyOutputsOk id renamed1 none ok1
  have moved : Copied second { g with outputs := outputs1 } names2 := copied2.same rfl rfl
  obtain ⟨next, ok2⟩ : ∃ next, copyOutputs second names2 (lookUp qubits2) { g with outputs := outputs1 } =
      .ok next := by
    refine copyOutputsTotal (· + (first.inputs.size : Int)) sound2 moved.renames renamed2 ?_ ?_ ?_ fun n output => ?_
    · exact roles2.outputsOnce.map fun p q eq => add_right_cancel eq
    · intro q value
      have below := roles2.outputsBelow q value
      rw [size]
      omega
    · intro q value taken
      rw [Table.values, entries1, List.map_map, List.mem_map] at taken
      obtain ⟨e, mem, eq⟩ := taken
      have below := roles1.outputsBelow e.2 (List.mem_map_of_mem mem)
      have nonneg := (roles2.memInputs.mp (within2 q value)).1
      have same : e.2 = q + (first.inputs.size : Int) := eq
      omega
    · refine ⟨fun taken => ?_, moved.outputFree sound2 output⟩
      rw [Table.keys, entries1, List.map_map, List.mem_map] at taken
      obtain ⟨e, mem, eq⟩ := taken
      exact namesApart copied1 copied2 apart (sound1.outputsThere e.1 (List.mem_map_of_mem mem))
        (sound2.outputsThere n output) eq
  obtain ⟨outputs2, rfl, entries2⟩ := copyOutputsAfter (· + (first.inputs.size : Int)) renamed2 ok2
  rw [entries1] at entries2
  exact ⟨_, outputs2, ok1, ok2, entries2⟩

theorem edgesBeside (reach : g.Reachable) (bare : ∀ a, g.adjacent a = (empty : Graph R).adjacent a) :
    ∃ mid next, copyEdges first names1 g = .ok mid ∧ copyEdges second names2 mid = .ok next ∧
      next.edges.Perm (first.edges.map (relink names1) ++ second.edges.map (relink names2)) ∧
      (∀ n, n ∈ next.nodes ↔ n ∈ g.nodes) ∧ next.inputs = g.inputs ∧
      next.outputs = g.outputs ∧ next.bases = g.bases ∧ next.cliffords = g.cliffords := by
  obtain ⟨mid, ok1⟩ := copyEdgesTotal sound1 copied1.renames reach fun a b _ => by
    rw [bare]
    exact notAdjacent (by simp [empty])
  obtain ⟨perm1, keys1, inputs1, outputs1, bases1, cliffords1⟩ := copyEdgesOk ok1
  rw [edgeless bare, List.append_nil] at perm1
  have reach1 := reach.copyEdges ok1
  -- All edges so far join copies of nodes of the first graph.
  have clear : ∀ i j, j ∈ second.adjacent i → named names2 j ∉ mid.adjacent (named names2 i) := by
    intro i j near old
    rw [nearIff (reachableSound reach1), perm1.mem_iff, memRelinked sound1] at old
    obtain ⟨a, b, near1, eq, _⟩ := old
    exact namesApart copied1 copied2 apart (sound1.ownerThere near1) (sound2.ownerThere near) eq
  obtain ⟨next, ok2⟩ := copyEdgesTotal sound2 (copied2.renames.move keys1) reach1 clear
  obtain ⟨perm2, keys2, inputs2, outputs2, bases2, cliffords2⟩ := copyEdgesOk ok2
  exact ⟨mid, next, ok1, ok2, (perm2.trans (perm1.append_left _)).trans List.perm_append_comm,
    fun n => (keys2 n).trans (keys1 n), inputs2.trans inputs1, outputs2.trans outputs1,
    bases2.trans bases1, cliffords2.trans cliffords1⟩

end

theorem Beside.canonical (beside : Beside first second c) (canonical1 : first.isCanonical = true)
    (canonical2 : second.isCanonical = true) : c.graph.isCanonical = true := by
  obtain ⟨size1, _, based1⟩ := canonicalIff.mp canonical1
  obtain ⟨size2, _, based2⟩ := canonicalIff.mp canonical2
  have outputs : c.graph.outputs.keys =
      first.outputs.keys.map (named c.first) ++ second.outputs.keys.map (named c.second) := by
    simp [Table.keys, beside.outputs, Function.comp_def]
  refine canonicalIff.mpr ⟨?_, by rw [beside.cliffords]; rfl, fun v inner => ?_⟩
  · have inputs : c.graph.inputs.size = first.inputs.size + second.inputs.size := by
      simp [Table.size, beside.inputs]
    have outputs : c.graph.outputs.size = first.outputs.size + second.outputs.size := by
      simp [Table.size, beside.outputs]
    rw [inputs, outputs, size1, size2]
  · obtain ⟨node, measured⟩ := memInnerNodes.mp inner
    rcases (beside.nodes v).mp node with ⟨n, found⟩ | ⟨n, found⟩
    · refine beside.copied1.measuredBased based1 (fun m output => ?_) found measured
      rw [outputs]
      exact List.mem_append_left _ (List.mem_map_of_mem output)
    · refine beside.copied2.measuredBased based2 (fun m output => ?_) found measured
      rw [outputs]
      exact List.mem_append_right _ (List.mem_map_of_mem output)

/- Canonical graphs whose outputs have numbers of inputs can be put side by side, and what comes out is their
disjoint union. -/
theorem parallelBeside (reach1 : first.Reachable) (reach2 : second.Reachable)
    (canonical1 : first.isCanonical = true) (canonical2 : second.isCanonical = true)
    (within1 : ∀ q ∈ first.outputs.values, q ∈ first.inputs.values)
    (within2 : ∀ q ∈ second.outputs.values, q ∈ second.inputs.values) :
    ∃ c, first.parallel second = .ok c ∧ c.graph.isCanonical = true ∧ Beside first second c := by
  have sound1 := reachableSound reach1
  have sound2 := reachableSound reach2
  have roles1 := reachableRoles reach1
  have roles2 := reachableRoles reach2
  have start : (empty : Graph R).Reachable := ⟨[], rfl⟩
  have reach := (start.copyNodes first first.nodes).copyNodes second second.nodes
  have accepted : requireCanonical first second = .ok () := requireCanonicalOk.mpr ⟨canonical1, canonical2⟩
  simp only [parallel, accepted, Result.okBind]
  obtain ⟨copies1, keys1⟩ := copiesOfNodes first emptySound first.nodes
  generalize first.copyNodes empty first.nodes = part1 at reach copies1 keys1 ⊢
  obtain ⟨copies2, keys2⟩ := copiesOfNodes second copies1.sound second.nodes
  generalize second.copyNodes part1.1 second.nodes = part2 at reach copies2 keys2 ⊢
  have copied1 : Copied first part2.1 part1.2 := (copies1.copied keys1).move
    (fun v here => (copies2.keys v).mpr (.inl here)) copies2.kept
  have copied2 : Copied second part2.1 part2.2 := copies2.copied keys2
  have apart : ∀ a b v, part1.2.get? a = some v → part2.2.get? b ≠ some v := fun a b v found found' =>
    copies2.fresh b v found' ((copies1.keys v).mpr (.inr ⟨a, found⟩))
  have nodes : ∀ v, v ∈ part2.1.nodes ↔
      (∃ n, part1.2.get? n = some v) ∨ ∃ n, part2.2.get? n = some v := by
    intro v
    rw [copies2.keys, copies1.keys]
    simp [empty]
  obtain ⟨g1, qubits1, inputs, qubits2, inputsOk1, inputsOk2, inputsListed, found1, found2⟩ :=
    inputsBeside sound1 sound2 copied1 copied2 apart roles1 roles2
      (by rw [copies2.inputs, copies1.inputs]; rfl)
  have size : inputs.size = first.inputs.size + second.inputs.size := by
    rw [Table.size, inputsListed, List.length_append, List.length_map, List.length_map, Table.size, Table.size]
  have fed1 : Copied first { part2.1 with inputs := inputs } part1.2 := copied1.same rfl rfl
  have fed2 : Copied second { part2.1 with inputs := inputs } part2.2 := copied2.same rfl rfl
  obtain ⟨g3, outputs, outputsOk1, outputsOk2, outputsListed⟩ :=
    outputsBeside sound1 sound2 fed1 fed2 apart roles1 roles2 within1 within2 found1 found2 size
      (copies2.outputs.trans copies1.outputs)
  have marked1 : Copied first { part2.1 with inputs := inputs, outputs := outputs } part1.2 := fed1.same rfl rfl
  have marked2 : Copied second { part2.1 with inputs := inputs, outputs := outputs } part2.2 := fed2.same rfl rfl
  have bare (a : Int) : part2.1.adjacent a = (empty : Graph R).adjacent a := by
    rw [copies2.adjacent, copies1.adjacent]
  have reach4 := (((reach.copyInputs inputsOk1).copyInputs inputsOk2).copyOutputs outputsOk1).copyOutputs
    outputsOk2
  obtain ⟨g5, g6, edgesOk1, edgesOk2, edges, keys6, inputs6, outputs6, bases6, cliffords6⟩ :=
    edgesBeside sound1 sound2 marked1 marked2 apart reach4 bare
  have keys (n : Int) : n ∈ g6.nodes ↔ n ∈ part2.1.nodes := keys6 n
  have beside : Beside first second ⟨g6, part1.2, part2.2⟩ := by
    refine ⟨copied1.move (fun n => (keys n).mpr) fun n _ => ?_,
      copied2.move (fun n => (keys n).mpr) fun n _ => ?_, apart, fun v => ?_, edges, ?_, ?_, ?_⟩
    · rw [bases6]
    · rw [bases6]
    · rw [keys, nodes]
    · rw [inputs6, inputsListed]
    · rw [outputs6, outputsListed]
    · rw [cliffords6]
      exact copies2.cliffords.trans copies1.cliffords
  refine ⟨⟨g6, part1.2, part2.2⟩, ?_, beside.canonical canonical1 canonical2, beside⟩
  rw [inputsOk1, Result.okBind, inputsOk2, Result.okBind, outputsOk1, Result.okBind, outputsOk2,
    Result.okBind, edgesOk1, Result.okBind, edgesOk2]
  rfl

set_option maxRecDepth 1024

theorem crossoverBesideRelay : crossover.Reachable ∧ relay.Reachable ∧ ∃ c,
    crossover.parallel relay = .ok c ∧ c.graph.isCanonical = true ∧ Beside crossover relay c ∧
    c.graph.inputs.entries = [(0, 0), (1, 1), (5, 2), (4, 3)] ∧
    c.graph.outputs.entries = [(2, 1), (3, 0), (4, 3), (6, 2)] := by
  have reach1 : crossover.Reachable := ⟨_, rfl⟩
  have reach2 : relay.Reachable := ⟨_, rfl⟩
  obtain ⟨c, ok, canonical, beside⟩ :=
    parallelBeside reach1 reach2 (by decide) (by decide) (by decide) (by decide)
  have run : ∃ c, crossover.parallel relay = .ok c ∧
      c.graph.inputs.entries = [(0, 0), (1, 1), (5, 2), (4, 3)] ∧
      c.graph.outputs.entries = [(2, 1), (3, 0), (4, 3), (6, 2)] := by
    simp only [parallel, copyInputs, byValueCounted (reachableRoles reach1),
      byValueCounted (reachableRoles reach2)]
    exact ⟨_, rfl, by decide, by decide⟩
  obtain ⟨d, ok', entries⟩ := run
  cases ok.symm.trans ok'
  exact ⟨reach1, reach2, c, ok, canonical, beside, entries⟩

end OneWay.Graph
