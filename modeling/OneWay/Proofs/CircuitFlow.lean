import OneWay.Proofs.Focus
import OneWay.Proofs.Pipeline

/-! The flow of a circuit's graph. A node is measured by one instruction, and from then on it gets no more
neighbours: later ones only join nodes that are new or that qubits are on. So the correction of a node
reaches no node that was measured before it, and the order of the instructions is one for the flow. -/
namespace OneWay

namespace Graph
variable {R : Type} [Scalar R] {g : Graph R} {m n t : Int}

structure Aims (g : Graph R) (n t : Int) : Prop where
  there : t ∈ g.nodes
  notInput : t ∉ g.inputs.keys
  way : ∃ angle, (g.bases.get? n = some (.planar .xy angle) ∧ n ∈ g.adjacent t) ∨
    (g.bases.get? n = some (.planar .yz angle) ∧ t = n)

theorem planeAtOk {plane : Plane} {angle : R} (found : g.bases.get? n = some (.planar plane angle)) :
    g.planeAt n = .ok plane := by
  rw [planeAt, basisAt, found]
  rfl

theorem Aims.plane (aims : g.Aims n t) : g.planeAt n = .ok .xy ∨ g.planeAt n = .ok .yz := by
  obtain ⟨angle, ⟨basis, _⟩ | ⟨basis, _⟩⟩ := aims.way
  · exact .inl (planeAtOk basis)
  · exact .inr (planeAtOk basis)

theorem Aims.corrects (sound : g.Sound) (aims : g.Aims n t) {order : List Int}
    (later : ∀ m, m = t ∨ m ∈ g.adjacent t → m ∉ g.outputNodes → m ≠ n →
      m ∈ order ∧ order.idxOf n < order.idxOf m) : g.Corrects order n (.singleton t) := by
  have there : ∀ m ∈ NodeSet.singleton t, m ∈ g.nodes := fun m mem =>
    NodeSet.memSingleton.mp mem ▸ aims.there
  obtain ⟨odd, neighbors⟩ := sound.oddNeighborsTotal there
  have near (m : Int) : m ∈ odd ↔ m ∈ g.adjacent t := oddSingleton neighbors
  have reached : ∀ m, m ∈ NodeSet.singleton t ∨ m ∈ odd → m ∉ g.outputNodes → m ≠ n →
      m ∈ order ∧ order.idxOf n < order.idxOf m := fun m touched =>
    later m (touched.imp NodeSet.memSingleton.mp (near m).mp)
  obtain ⟨angle, ⟨basis, joined⟩ | ⟨basis, rfl⟩⟩ := aims.way
  · refine ⟨.xy, odd, planeAtOk basis, neighbors, ⟨fun own => ?_, (near n).mpr joined⟩, reached⟩
    rw [NodeSet.memSingleton.mp own] at joined
    exact sound.loopless t joined
  · refine ⟨.yz, odd, planeAtOk basis, neighbors, ⟨NodeSet.memSingleton.mpr rfl, fun own => ?_⟩, reached⟩
    exact sound.loopless t ((near t).mp own)

end Graph

namespace Circuit.Growth
variable {R : Type} [Scalar R] {s s' : Growth R} {gate : Gate R} {qubits : Nat} {m n t x y : Int}

theorem Step.settled (grown : Grown qubits s) (step : Step s gate s') (measured : y ∈ s.flow.keys) :
    y ∈ s'.graph.adjacent x ↔ y ∈ s.graph.adjacent x := by
  -- The ends of a new edge are the new node and nodes that qubits are on, and none of them is measured yet.
  have based := (grown.flowKeys y).mp measured
  have free {q n : Int} (onto : s.front.get? q = some n) : y ≠ n := fun same =>
    grown.frontFree q n onto (same ▸ based)
  have fresh : y ≠ s.graph.next := fun same => grown.freshBase (same ▸ based)
  cases step with
  | @j q angle n g onto joined =>
    have near : y ∈ g.adjacent x ↔ _ := Graph.attachNewAdjacent grown.sound joined
    exact near.trans (by simp [fresh, free onto])
  | @cz p q rest a b g first second joined =>
    have near : y ∈ g.adjacent x ↔ _ := Graph.attachAdjacent joined
    exact near.trans (by simp [free first, free second])
  | @gadget operands angle ns g onto joined =>
    have others : y ∉ ns := fun mem => by
      obtain ⟨q, _, found⟩ := Result.memSource onto mem
      exact free found rfl
    have near : y ∈ g.adjacent x ↔ _ := Graph.attachNewAdjacent grown.sound joined
    exact near.trans (by simp [fresh, others])

theorem Step.nodesKept (step : Step s gate s') (there : n ∈ s.graph.nodes) :
    n ∈ s'.graph.nodes := by
  cases step with
  | j onto joined => exact (Graph.attachKeys joined).mpr (Graph.addNodeNodes.mpr (.inr there))
  | cz first second joined => exact (Graph.attachKeys joined).mpr there
  | gadget onto joined => exact (Graph.attachKeys joined).mpr (Graph.addNodeNodes.mpr (.inr there))

theorem Step.basisKept (grown : Grown qubits s) (step : Step s gate s') (measured : n ∈ s.flow.keys) :
    s'.graph.bases.get? n = s.graph.bases.get? n := by
  have based := (grown.flowKeys n).mp measured
  cases step with
  | @j q angle front g onto joined =>
    have other : n ≠ front := fun same => grown.frontFree q front onto (same ▸ based)
    rw [Table.getSet, if_neg other, (Graph.attachRest joined).2.2.2.1]
    rfl
  | cz first second joined => exact congrArg (Table.get? · n) (Graph.attachRest joined).2.2.2.1
  | @gadget operands angle ns g onto joined =>
    have bases : g.bases = s.graph.bases.set s.graph.next _ := (Graph.attachRest joined).2.2.2.1
    have other : n ≠ s.graph.next := fun same => grown.freshBase (same ▸ based)
    exact (congrArg (Table.get? · n) bases).trans (by rw [Table.getSet, if_neg other])

theorem Step.aimKept (grown : Grown qubits s) (step : Step s gate s') (measured : n ∈ s.flow.keys)
    (aims : s.graph.Aims n t) : s'.graph.Aims n t where
  there := step.nodesKept aims.there
  notInput := by
    rw [(grown.step step).inputs, ← grown.inputs]
    exact aims.notInput
  way := by
    rw [step.basisKept grown measured, step.settled grown measured]
    exact aims.way

theorem Step.measures (grown : Grown qubits s) (step : Step s gate s') : s'.flow = s.flow ∨
    ∃ n t, n ∉ s.flow.keys ∧ s'.flow = s.flow.set n (.singleton t) ∧ s'.graph.Aims n t ∧
      ∀ m ∈ s.flow.keys, ¬ (m = t ∨ m ∈ s'.graph.adjacent t) := by
  have ahead : ∀ m ∈ s.flow.keys, ¬ (m = s.graph.next ∨ m ∈ s'.graph.adjacent s.graph.next) := by
    rintro m measured (same | near)
    · exact grown.freshBase (same ▸ (grown.flowKeys m).mp measured)
    · exact grown.sound.nextAlone ((step.settled grown measured).mp near)
  have notInput : s.graph.next ∉ s'.graph.inputs.keys := by
    rw [(grown.step step).inputs, ← grown.inputs]
    exact fun mem => grown.sound.nextFresh (grown.sound.inputsThere _ mem)
  cases step with
  | @j q angle n g onto joined =>
    have there : s.graph.next ∈ g.nodes := (Graph.attachNewKeys joined).mpr (.inl rfl)
    have near : n ∈ g.adjacent s.graph.next :=
      (Graph.attachNewAdjacent grown.sound joined).mpr (.inr (.inr ⟨rfl, List.mem_singleton.mpr rfl⟩))
    refine .inr ⟨n, s.graph.next, fun mem => grown.frontFree q n onto ((grown.flowKeys n).mp mem), rfl,
      ⟨there, notInput, -angle, .inl ⟨?_, near⟩⟩, ahead⟩
    rw [Table.getSet, if_pos rfl]
  | cz first second joined => exact .inl rfl
  | @gadget operands angle ns g onto joined =>
    have there : s.graph.next ∈ g.nodes := (Graph.attachNewKeys joined).mpr (.inl rfl)
    have bases : g.bases = s.graph.bases.set s.graph.next _ := (Graph.attachRest joined).2.2.2.1
    refine .inr ⟨s.graph.next, s.graph.next, fun mem => grown.freshBase ((grown.flowKeys _).mp mem), rfl,
      ⟨there, notInput, angle, .inr ⟨?_, rfl⟩⟩, ahead⟩
    exact (congrArg (Table.get? · s.graph.next) bases).trans (by rw [Table.getSet, if_pos rfl])

def Reaches (s : Growth R) (n m : Int) : Prop :=
  ∃ t, s.flow.get? n = some (.singleton t) ∧ (m = t ∨ m ∈ s.graph.adjacent t)

structure Directed (s : Growth R) : Prop where
  each : ∀ n c, s.flow.get? n = some c → ∃ t, c = .singleton t ∧ s.graph.Aims n t
  forward : s.flow.keys.Pairwise fun n m => ¬ s.Reaches m n

theorem seedDirected : Directed (seed qubits : Growth R) where
  each n c found := by cases found
  forward := List.Pairwise.nil

theorem Directed.step (grown : Grown qubits s) (directed : Directed s) (step : Step s gate s') :
    Directed s' := by
  have kept {n : Int} {c : NodeSet} (found : s.flow.get? n = some c) :
      ∃ t, c = .singleton t ∧ s'.graph.Aims n t := by
    obtain ⟨t, single, aims⟩ := directed.each n c found
    exact ⟨t, single, step.aimKept grown (Table.memKeys.mpr ⟨c, found⟩) aims⟩
  have back {n m : Int} (same : s'.flow.get? m = s.flow.get? m) (measured : n ∈ s.flow.keys)
      (reaches : s'.Reaches m n) : s.Reaches m n := by
    obtain ⟨t, found, reached⟩ := reaches
    exact ⟨t, same ▸ found, reached.imp_right (step.settled grown measured).mp⟩
  rcases step.measures grown with same | ⟨n, t, new, flow, aims, ahead⟩
  · refine ⟨fun m c found => kept (same ▸ found), ?_⟩
    rw [same]
    exact directed.forward.imp_of_mem fun hereA _ apart reaches => apart (back (by rw [same]) hereA reaches)
  · have others {m : Int} (measured : m ∈ s.flow.keys) : s'.flow.get? m = s.flow.get? m := by
      have other : m ≠ n := fun same => new (same ▸ measured)
      rw [flow, Table.getSet, if_neg other]
    constructor
    · intro m c found
      rw [flow, Table.getSet] at found
      split at found
      · rename_i here
        cases found
        exact ⟨t, rfl, here ▸ aims⟩
      · exact kept found
    · -- The new node stands last, so it only has to leave the others alone.
      rw [flow, Table.keysSet new]
      refine List.pairwise_append.mpr ⟨?_, List.pairwise_singleton _ _, fun m measured last mem => ?_⟩
      · exact directed.forward.imp_of_mem fun hereA hereB apart reaches =>
          apart (back (others hereB) hereA reaches)
      · rintro ⟨u, found, reached⟩
        rw [List.mem_singleton.mp mem, flow, Table.getSet, if_pos rfl] at found
        rw [← NodeSet.singletonInj (Option.some.inj found)] at reached
        exact ahead m measured reached

theorem directedRun {gates : List (Gate R)} (ok : gates.foldlM addInstruction (seed qubits) = .ok s) :
    Grown qubits s ∧ Directed s :=
  grownRun (P := fun _ t => Directed t) seedDirected
    (fun _ _ _ _ grown directed step => directed.step grown step) ok

theorem Directed.corrected (grown : Grown qubits s) (directed : Directed s) {g : Graph R}
    (finished : s.finish = .ok g) : g.Corrected s.flow.keys s.flow ∧
      ∀ n c, s.flow.get? n = some c → ∃ t, c = .singleton t ∧ g.Aims n t := by
  obtain ⟨same, _, _⟩ := grown.finish finished
  have sound : g.Sound := outputsSound grown.sound finished
  have adjacent (x : Int) : g.adjacent x = s.graph.adjacent x := by
    rw [same]
    rfl
  have keys (n : Int) : n ∈ s.flow.keys ↔ n ∈ g.innerNodes :=
    (grown.flowKeys n).trans (grown.innerBased finished).symm
  have aimed : ∀ n c, s.flow.get? n = some c → ∃ t, c = .singleton t ∧ g.Aims n t := by
    intro n c found
    obtain ⟨t, single, there, notInput, way⟩ := directed.each n c found
    rw [same]
    exact ⟨t, single, there, notInput, way⟩
  refine ⟨⟨keys, keys, fun n c found => ?_⟩, aimed⟩
  obtain ⟨t, rfl, aims⟩ := aimed n c found
  refine aims.corrects sound fun m reached inner other => ?_
  have there : m ∈ g.nodes := by
    rcases reached with here | near
    · exact here ▸ aims.there
    · exact sound.neighborThere near
  have measured : m ∈ s.flow.keys :=
    (keys m).mpr (Graph.memInnerNodes.mpr ⟨there, fun output => inner (Graph.memOutputNodes.mpr output)⟩)
  rw [adjacent] at reached
  have reaches : s.Reaches n m := ⟨t, found, reached⟩
  exact ⟨measured, idxOfBefore directed.forward (Table.memKeys.mpr ⟨_, found⟩) measured (Ne.symm other)
    fun unreached => unreached reaches⟩

end Circuit.Growth

namespace Circuit
variable {R : Type} [Scalar R]

theorem circuitFlowCorrects {c : Circuit R} {g : Graph R} {flow : Table NodeSet}
    (ok : c.toGraph = .ok (g, flow)) : flow.keys.Nodup ∧ g.Corrected flow.keys flow ∧
      (∀ n ∈ g.innerNodes, g.planeAt n = .ok .xy ∨ g.planeAt n = .ok .yz) ∧
      ∀ n s, flow.get? n = some s → ∀ m ∈ s, m ∉ g.inputNodes := by
  obtain ⟨gates, s, _, ran, finished, rfl⟩ := toGraphSource ok
  obtain ⟨grown, directed⟩ := Growth.directedRun ran
  obtain ⟨corrected, aimed⟩ := directed.corrected grown finished
  refine ⟨s.flow.distinct, corrected, fun n inner => ?_, fun n c found m mem input => ?_⟩
  · obtain ⟨c, found⟩ := Table.memKeys.mp ((corrected.keys n).mpr inner)
    obtain ⟨t, _, aims⟩ := aimed n c found
    exact aims.plane
  · obtain ⟨t, rfl, aims⟩ := aimed n c found
    rw [NodeSet.memSingleton.mp mem] at input
    exact aims.notInput (Graph.memInputNodes.mp input)

/- A gadget's node is newer than the nodes that it hangs on, which are measured after it. -/
def lattice : Circuit Float :=
  ⟨2, [.verbatim (.j 0 Scalar.pi), .verbatim (.phaseGadget [0, 1] Scalar.pi), .verbatim (.cz [0, 1]),
    .verbatim (.j 1 Scalar.pi), .verbatim (.j 0 Scalar.pi)]⟩

theorem latticeCorrected : ∃ g flow, lattice.toGraph = .ok (g, flow) ∧ g.inputs.keys = [0, 1] ∧
    flow.keys = [0, 3, 1, 2] ∧ g.Corrected [0, 3, 1, 2] flow := by
  obtain ⟨g, flow, ok, inputs, keys⟩ : ∃ g flow, lattice.toGraph = .ok (g, flow) ∧ g.inputs.keys = [0, 1] ∧
      flow.keys = [0, 3, 1, 2] := ⟨_, _, rfl, rfl, rfl⟩
  obtain ⟨_, corrected, _, _⟩ := circuitFlowCorrects ok
  exact ⟨g, flow, ok, inputs, keys, keys ▸ corrected⟩

end Circuit
end OneWay
