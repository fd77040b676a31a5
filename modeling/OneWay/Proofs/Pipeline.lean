import OneWay.Proofs.Compile
import OneWay.Proofs.Growth

/-! From a circuit through its graph and flow to a pattern. A phase gadget corrects itself, which the
check of dependencies refuses; without one, every node is corrected by a node that came after it and
disturbs only nodes whose own corrections came later still. -/
namespace OneWay

namespace NodeSet

theorem singletonInj {n m : Int} (eq : singleton n = singleton m) : n = m := by
  have mem : n ∈ singleton m := eq ▸ memSingleton.mpr rfl
  exact memSingleton.mp mem

end NodeSet

namespace Graph
variable {R : Type} [Scalar R] {g : Graph R} {xflow zflow : Flow} {x z : Table NodeSet} {n m : Int}

theorem canonicalIff : g.isCanonical = true ↔ g.inputs.size = g.outputs.size ∧
    g.cliffords.isEmpty = true ∧ ∀ n ∈ g.innerNodes, n ∈ g.bases.keys := by
  simp only [isCanonical, Bool.and_eq_true, beq_iff_eq, List.all_eq_true, Table.containsIff, and_assoc,
    NodeSet.memDef]

theorem oddSingleton {t : Int} {odd : NodeSet} (ok : g.oddNeighbors (.singleton t) = .ok odd) :
    m ∈ odd ↔ m ∈ g.adjacent t := by
  unfold oddNeighbors at ok
  rw [NodeSet.toListSingleton] at ok
  simp only [List.foldlM_cons, List.foldlM_nil, Result.bindOk, Result.pureOk, neighborsOk] at ok
  obtain ⟨_, ⟨_, ⟨_, _, rfl⟩, rfl⟩, rfl⟩ := ok
  simp

theorem orderMeasured (sound : g.Sound) (canonical : g.isCanonical = true)
    (checked : (g.dependencies x z).check = .ok ()) {order : List Int}
    (ordered : (g.dependencies x z).order = .ok order) : ∃ measured, Compiled g x z order measured := by
  have each : ∀ n ∈ g.measuredOrder order, ∃ c, g.measurement n = .ok c := by
    intro n mem
    obtain ⟨listed, inner⟩ := List.mem_filter.mp mem
    have here : n ∈ g.nodes := by
      rcases Dependency.memVertices.mp
        (((Dependency.orderSpec ordered).2 n).mp (List.mem_reverse.mp listed)) with key | ⟨k, member⟩
      · exact (dependencyKeys sound).mp key
      · exact (dependencyKeys sound).mp (Dependency.checkOk.mp checked k n member).1
    have based : n ∈ g.bases.keys :=
      (canonicalIff.mp canonical).2.2 n (memInnerNodes.mpr ⟨here, by simpa using inner⟩)
    obtain ⟨basis, found⟩ := Table.memKeys.mp based
    exact ⟨_, measurementOk.mpr ⟨basis, found, rfl⟩⟩
  obtain ⟨measured, measures⟩ := Result.mapMTotal each
  exact ⟨measured, canonical, checked, ordered, Result.mapMOk.mp measures⟩

/- A measure that falls from every node to its dependants is all that compilation needs of a flow. -/
theorem compileOfRank {zgiven : Option Flow} (sound : g.Sound) (canonical : g.isCanonical = true)
    (corrections : g.zCorrections xflow zgiven = .ok zflow) (setsX : xflow.sets = .ok x)
    (setsZ : zflow.sets = .ok z)
    (there : ∀ n, ∀ m ∈ setAt (g.dependencies x z) n, m ∈ g.nodes) (rank : Int → Nat)
    (lower : ∀ n, ∀ m ∈ setAt (g.dependencies x z) n, rank m < rank n) (correct : Bool) :
    ∃ p, g.compile xflow zgiven none correct = .ok p := by
  have checked : (g.dependencies x z).check = .ok () := by
    refine Dependency.checkOk.mpr fun n m mem => ⟨(dependencyKeys sound).mpr (there n m mem), ?_⟩
    intro back
    exact absurd (lower m n back) (Nat.lt_asymm (lower n m mem))
  obtain ⟨order, ordered⟩ := Dependency.orderOfRank rank lower
  obtain ⟨measured, parts⟩ := orderMeasured sound canonical checked ordered
  exact ⟨_, compileOk.mpr ⟨zflow, x, z, order, measured, corrections, setsX, setsZ, parts, rfl⟩⟩

end Graph

namespace Circuit.Growth
variable {R : Type} [Scalar R] {s s' : Growth R} {qubits : Nat}

structure Causal (s : Growth R) : Prop where
  single : ∀ n c, s.flow.get? n = some c →
    ∃ t, c = .singleton t ∧ t ∈ s.graph.nodes ∧ n ≠ t
  later : ∀ n t m u, s.flow.get? n = some (.singleton t) → (m = t ∨ m ∈ s.graph.adjacent t) → m ≠ n →
    s.flow.get? m = some (.singleton u) → t < u

theorem seedCausal : Causal (seed qubits : Growth R) where
  single n c found := by cases found
  later n t m u found := by cases found

theorem Causal.j (grown : Grown qubits s) (causal : Causal s) {q n : Int} {angle : R} {g : Graph R}
    (onto : s.front.get? q = some n) (joined : s.graph.addNode.2.attach s.graph.next [n] = .ok g) :
    Causal ⟨{ g with bases := g.bases.set n (.planar .xy (-angle)) },
      s.front.set q s.graph.next, s.flow.set n (.singleton s.graph.next)⟩ := by
  have keys : ∀ m, m ∈ g.nodes ↔ m = s.graph.next ∨ m ∈ s.graph.nodes := fun _ =>
    Graph.attachNewKeys joined
  have near : ∀ a b, b ∈ g.adjacent a ↔ b ∈ s.graph.adjacent a ∨ (a = n ∧ b = s.graph.next) ∨
      (a = s.graph.next ∧ b = n) := by
    intro a b
    rw [Graph.attachNewAdjacent grown.sound joined, List.mem_singleton, List.mem_singleton]
  have noFlow : s.flow.get? s.graph.next = none := grown.noFlow grown.freshBase
  have fresh : n ≠ s.graph.next := grown.fresh onto
  constructor
  · intro a c found
    rw [Table.getSet] at found
    split at found
    · rename_i here
      cases found
      exact ⟨s.graph.next, rfl, (keys _).mpr (.inl rfl), here ▸ fresh⟩
    · obtain ⟨t, same, there, apart⟩ := causal.single a c found
      exact ⟨t, same, (keys t).mpr (.inr there), apart⟩
  · intro a t m u found reached apart measured
    rw [Table.getSet] at found measured
    by_cases here : a = n
    · -- the new node is joined to the one it corrects and to no other
      rw [if_pos here] at found
      have same : s.graph.next = t := NodeSet.singletonInj (Option.some.inj found)
      rw [← same] at reached
      rcases reached with self | joined
      · rw [self, if_neg fresh.symm, noFlow] at measured
        cases measured
      · rcases (near _ m).mp joined with old | ⟨back, _⟩ | ⟨_, back⟩
        · exact absurd old grown.sound.nextAlone
        · exact absurd back.symm fresh
        · exact absurd (back.trans here.symm) apart
    · rw [if_neg here] at found
      obtain ⟨t', same, there, _⟩ := causal.single a _ found
      rw [← NodeSet.singletonInj same] at there
      have below : t < s.graph.next := grown.sound.numbered t there
      split at measured
      · have new : s.graph.next = u := NodeSet.singletonInj (Option.some.inj measured)
        omega
      · have old : m ≠ s.graph.next := by
          intro new
          rw [new, noFlow] at measured
          cases measured
        refine causal.later a t m u found ?_ apart measured
        rcases reached with self | joined
        · exact .inl self
        · rcases (near t m).mp joined with near | ⟨_, new⟩ | ⟨new, _⟩
          · exact .inr near
          · exact absurd new old
          · omega

theorem Causal.cz (grown : Grown qubits s) (causal : Causal s) {p q a b : Int} {g : Graph R}
    (first : s.front.get? p = some a) (second : s.front.get? q = some b)
    (joined : s.graph.attach b [a] = .ok g) : Causal { s with graph := g } := by
  have noFlow : ∀ q n, s.front.get? q = some n → s.flow.get? n = none := fun q n onto =>
    grown.noFlow (grown.frontFree q n onto)
  constructor
  · intro n c found
    obtain ⟨t, same, there, apart⟩ := causal.single n c found
    exact ⟨t, same, (Graph.attachKeys joined).mpr there, apart⟩
  · intro n t m u found reached apart measured
    refine causal.later n t m u found ?_ apart measured
    rcases reached with self | near
    · exact .inl self
    · rcases (Graph.attachAdjacent joined).mp near with old | ⟨_, other⟩ | ⟨_, other⟩
      · exact .inr old
      · have none := noFlow q m (other ▸ second)
        rw [none] at measured
        cases measured
      · have none := noFlow p m (List.mem_singleton.mp other ▸ first)
        rw [none] at measured
        cases measured

theorem Step.selfKept (grown : Grown qubits s) {gate : Gate R} (step : Step s gate s') {n : Int}
    (self : s.flow.get? n = some (.singleton n)) : s'.flow.get? n = some (.singleton n) := by
  have based : n ∈ s.graph.bases.keys := (grown.flowKeys n).mp (Table.memKeys.mpr ⟨_, self⟩)
  cases step with
  | j onto joined =>
    rw [Table.getSet, if_neg ?_, self]
    intro same
    exact grown.frontFree _ _ onto (same ▸ based)
  | cz _ _ _ => exact self
  | gadget _ _ =>
    rw [Table.getSet, if_neg ?_, self]
    intro same
    exact grown.freshBase (same ▸ based)

def IsGadget (gate : Gate R) : Prop := ∃ qubits angle, gate = .phaseGadget qubits angle

def Foretold (gates : List (Gate R)) (s : Growth R) : Prop :=
  ((∀ gate ∈ gates, ¬ IsGadget gate) → Causal s) ∧
    ((∃ gate ∈ gates, IsGadget gate) → ∃ n, s.flow.get? n = some (.singleton n))

theorem Foretold.step (grown : Grown qubits s) {gates : List (Gate R)} (foretold : Foretold gates s)
    {gate : Gate R} (step : Step s gate s') : Foretold (gates ++ [gate]) s' := by
  constructor
  · intro none
    have causal := foretold.1 fun gate mem => none gate (List.mem_append_left _ mem)
    cases step with
    | j onto joined => exact causal.j grown onto joined
    | cz first second joined => exact causal.cz grown first second joined
    | gadget _ _ => exact absurd ⟨_, _, rfl⟩ (none _ (List.mem_append_right gates (List.mem_singleton.mpr rfl)))
  · intro given
    obtain ⟨gadget, mem, isGadget⟩ := given
    rcases List.mem_append.mp mem with old | new
    · obtain ⟨n, self⟩ := foretold.2 ⟨gadget, old, isGadget⟩
      exact ⟨n, step.selfKept grown self⟩
    · rw [List.mem_singleton.mp new] at isGadget
      obtain ⟨qubits, angle, rfl⟩ := isGadget
      cases step with
      | gadget _ _ => exact ⟨s.graph.next, by rw [Table.getSet, if_pos rfl]⟩

theorem foretoldRun {gates : List (Gate R)} (ok : gates.foldlM addInstruction (seed qubits) = .ok s) :
    Grown qubits s ∧ Foretold gates s := by
  have start : Foretold [] (seed qubits : Growth R) := by
    refine ⟨fun _ => seedCausal, ?_⟩
    intro given
    obtain ⟨_, mem, _⟩ := given
    cases mem
  exact grownRun start (fun _ _ _ _ grown foretold step => foretold.step grown step) ok

theorem Grown.canonical (grown : Grown qubits s) {g : Graph R} (ok : s.finish = .ok g) :
    g.isCanonical = true := by
  obtain ⟨same, size, outputs⟩ := grown.finish ok
  refine Graph.canonicalIff.mpr ⟨?_, ?_, ?_⟩
  · have lengths := congrArg List.length grown.qubitsKept
    rw [Table.keys, Table.keys, List.length_map, List.length_map] at lengths
    have inputs : g.inputs = (seed qubits : Growth R).graph.inputs := by
      rw [same]
      exact grown.inputs
    rw [size, inputs]
    exact lengths.symm
  · rw [same]
    exact congrArg Table.isEmpty grown.cliffords
  · intro n inner
    rw [same]
    exact (grown.innerBased ok).mp inner

def rank (s : Growth R) (n : Int) : Nat := match s.flow.get? n with
  | some c => (s.graph.next - c.toList.headD 0).toNat
  | none => 0

theorem Causal.rankFalls (grown : Grown qubits s) (causal : Causal s) {n t m : Int}
    (found : s.flow.get? n = some (.singleton t)) (reached : m = t ∨ m ∈ s.graph.adjacent t)
    (apart : m ≠ n) : s.rank m < s.rank n := by
  obtain ⟨t', same, there, _⟩ := causal.single n _ found
  have below : t' < s.graph.next := grown.sound.numbered t' there
  have single := NodeSet.singletonInj same
  unfold rank
  rw [found]
  show _ < (s.graph.next - t).toNat
  cases measured : s.flow.get? m with
  | none =>
    show 0 < (s.graph.next - t).toNat
    omega
  | some c =>
    obtain ⟨u, rfl, _, _⟩ := causal.single m c measured
    have later : t < u := causal.later n t m u found reached apart measured
    show (s.graph.next - u).toNat < (s.graph.next - t).toNat
    omega

theorem Causal.compiles (grown : Grown qubits s) (causal : Causal s) {g : Graph R}
    (ok : s.finish = .ok g) (correct : Bool) :
    ∃ p, g.compile (.ofSets s.flow) none none correct = .ok p := by
  obtain ⟨same, _, _⟩ := grown.finish ok
  have nodes : g.nodes = s.graph.nodes := by rw [same]
  have adjacent : ∀ t, g.adjacent t = s.graph.adjacent t := fun t => by rw [same]; rfl
  obtain ⟨x, setsX⟩ := Flow.setsOfSets s.flow
  have getX : ∀ n, x.get? n = s.flow.get? n := Flow.getOfSets setsX
  have into : ∀ n c, x.get? n = some c → ∀ m ∈ c, m ∈ g.nodes := by
    intro n c found m mem
    obtain ⟨t, rfl, there, _⟩ := causal.single n c (getX n ▸ found)
    rw [NodeSet.memSingleton.mp mem, nodes]
    exact there
  have sound := outputsSound grown.sound ok
  obtain ⟨zflow, z, corrections, setsZ⟩ := Graph.zCorrectionsTotal sound setsX into
  have reach : ∀ n, ∀ m ∈ Graph.setAt (g.dependencies x z) n, ∃ t,
      s.flow.get? n = some (.singleton t) ∧ (m = t ∨ m ∈ s.graph.adjacent t) ∧ m ≠ n := by
    intro n m mem
    obtain ⟨inner, member⟩ := Graph.dependencyMember.mp mem
    obtain ⟨c, found⟩ := Table.memKeys.mp ((grown.flowKeys n).mpr ((grown.innerBased ok).mp inner))
    obtain ⟨t, rfl, _, apart⟩ := causal.single n c found
    have given : x.get? n = some (.singleton t) := (getX n).trans found
    refine ⟨t, found, ?_⟩
    rcases member with direct | ⟨odd, other⟩
    · rw [Graph.setAt, given] at direct
      have here : m = t := NodeSet.memSingleton.mp direct
      exact ⟨.inl here, here ▸ apart.symm⟩
    · obtain ⟨near, neighbors, atZ⟩ := Graph.zCorrectionsDefault corrections setsX setsZ given
      rw [Graph.setAt, atZ] at odd
      exact ⟨.inr (adjacent t ▸ (Graph.oddSingleton neighbors).mp odd), other⟩
  refine Graph.compileOfRank sound (grown.canonical ok) corrections setsX setsZ
    ?_ s.rank ?_ correct
  · intro n m mem
    obtain ⟨t, found, reached, _⟩ := reach n m mem
    rw [nodes]
    rcases reached with here | near
    · obtain ⟨t', same, there, _⟩ := causal.single n _ found
      rw [here, NodeSet.singletonInj same]
      exact there
    · exact grown.sound.neighborThere near
  · intro n m mem
    obtain ⟨t, found, reached, apart⟩ := reach n m mem
    exact causal.rankFalls grown found reached apart

theorem Grown.selfRefused (grown : Grown qubits s) {n : Int} {g : Graph R} {correct : Bool}
    {p : Pattern R} (self : s.flow.get? n = some (.singleton n)) (ok : s.finish = .ok g) :
    g.compile (.ofSets s.flow) none none correct ≠ .ok p := by
  intro compiled
  obtain ⟨_, x, _, _, _, _, setsX, _, parts, _⟩ := Graph.compileOk.mp compiled
  have inner : n ∈ g.innerNodes :=
    (grown.innerBased ok).mpr ((grown.flowKeys n).mp (Table.memKeys.mpr ⟨_, self⟩))
  refine parts.notOwn inner ?_
  rw [Graph.setAt, Flow.getOfSets setsX, self]
  exact NodeSet.memSingleton.mpr rfl

end Circuit.Growth

namespace Circuit
variable {R : Type} [Scalar R]

theorem circuitCompilesIff {c : Circuit R} {g : Graph R} {flow : Table NodeSet}
    (ok : c.toGraph = .ok (g, flow)) (correct : Bool) : ∃ gates, c.instructions = .ok gates ∧
      ((∃ p, g.compile (.ofSets flow) none none correct = .ok p) ↔
        ∀ qubits angle, Gate.phaseGadget qubits angle ∉ gates) := by
  obtain ⟨gates, s, read, ran, finished, rfl⟩ := toGraphSource ok
  obtain ⟨grown, foretold⟩ := Growth.foretoldRun ran
  refine ⟨gates, read, ?_⟩
  constructor
  · intro given qubits angle mem
    obtain ⟨p, compiled⟩ := given
    obtain ⟨n, self⟩ := foretold.2 ⟨_, mem, qubits, angle, rfl⟩
    exact grown.selfRefused self finished compiled
  · intro none
    have causal : s.Causal := by
      refine foretold.1 fun gate mem isGadget => ?_
      obtain ⟨qubits, angle, rfl⟩ := isGadget
      exact none qubits angle mem
    exact causal.compiles grown finished correct

def ladder : Circuit Float :=
  ⟨3, [.verbatim (.j 0 Scalar.pi), .verbatim (.cz [1, 0]), .verbatim (.cz [2, 1]),
    .expanded (.cnot [2, 0]), .verbatim (.j 1 Scalar.pi)]⟩

theorem ladderCompiles : ∃ g flow p, ladder.toGraph = .ok (g, flow) ∧
    g.compile (.ofSets flow) none none true = .ok p := by
  obtain ⟨g, flow, ok⟩ : ∃ g flow, ladder.toGraph = .ok (g, flow) := ⟨_, _, rfl⟩
  obtain ⟨gates, read, compiles⟩ := circuitCompilesIff ok true
  have none : ∀ qubits angle, Gate.phaseGadget qubits angle ∉ gates := by
    intro qubits angle mem
    cases read
    simp [Gate.cnotGates] at mem
  obtain ⟨p, compiled⟩ := compiles.mpr none
  exact ⟨g, flow, p, ok, compiled⟩

def lantern : Circuit Float := ⟨1, [.verbatim (.phaseGadget [0] Scalar.pi)]⟩

theorem lanternRefused : ∃ g flow, lantern.toGraph = .ok (g, flow) ∧
    g.compile (.ofSets flow) none none true = .error (.cyclePair 1 1) :=
  ⟨_, _, rfl, rfl⟩

end Circuit
end OneWay
