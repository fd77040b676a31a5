import OneWay.Circuit.Graph
import OneWay.Proofs.Reachable

/-! How the graph of a circuit grows. Every instruction adds at most one node, joins it or an old one to
nodes that qubits are on, and gives at most one node a basis; the nodes without one are those that
qubits are on. -/
namespace OneWay

namespace Graph
variable {R : Type} [Scalar R] {g next : Graph R} {m : Int} {ns : List Int}

def attach (g : Graph R) (m : Int) (ns : List Int) : Except Fault (Graph R) :=
  ns.foldlM (fun g n => g.addEdge n m) g

theorem attachCons {n : Int} : g.attach m (n :: ns) = .ok next ↔
    ∃ h, g.addEdge n m = .ok h ∧ h.attach m ns = .ok next := by
  rw [attach, List.foldlM_cons, Result.bindOk]
  rfl

theorem attachKeys (ok : g.attach m ns = .ok next) {n : Int} :
    n ∈ next.nodes ↔ n ∈ g.nodes := by
  induction ns generalizing g with
  | nil =>
    cases ok
    rfl
  | cons a rest ih =>
    obtain ⟨h, first, later⟩ := attachCons.mp ok
    rw [ih later, addEdgeNodes first]

theorem attachNewKeys {bases : Table (Basis R)} {n : Int}
    (ok : attach { g.addNode.2 with bases := bases } m ns = .ok next) :
    n ∈ next.nodes ↔ n = g.next ∨ n ∈ g.nodes :=
  (attachKeys ok).trans addNodeNodes

theorem attachAdjacent (ok : g.attach m ns = .ok next) {x y : Int} :
    y ∈ next.adjacent x ↔ y ∈ g.adjacent x ∨ (x ∈ ns ∧ y = m) ∨ (x = m ∧ y ∈ ns) := by
  induction ns generalizing g with
  | nil =>
    cases ok
    simp
  | cons a rest ih =>
    obtain ⟨h, first, later⟩ := attachCons.mp ok
    rw [ih later, addEdgeAdjacent first]
    simp only [List.mem_cons]
    constructor
    · intro mem
      rcases mem with (old | ⟨rfl, rfl⟩ | ⟨rfl, rfl⟩) | ⟨here, rfl⟩ | ⟨rfl, here⟩
      · exact .inl old
      · exact .inr (.inl ⟨.inl rfl, rfl⟩)
      · exact .inr (.inr ⟨rfl, .inl rfl⟩)
      · exact .inr (.inl ⟨.inr here, rfl⟩)
      · exact .inr (.inr ⟨rfl, .inr here⟩)
    · intro mem
      rcases mem with old | ⟨rfl | here, rfl⟩ | ⟨rfl, rfl | here⟩
      · exact .inl (.inl old)
      · exact .inl (.inr (.inl ⟨rfl, rfl⟩))
      · exact .inr (.inl ⟨here, rfl⟩)
      · exact .inl (.inr (.inr ⟨rfl, rfl⟩))
      · exact .inr (.inr ⟨rfl, here⟩)

theorem attachNewAdjacent {bases : Table (Basis R)} {x y : Int} (sound : g.Sound)
    (ok : attach { g.addNode.2 with bases := bases } g.next ns = .ok next) :
    y ∈ next.adjacent x ↔ y ∈ g.adjacent x ∨ (x ∈ ns ∧ y = g.next) ∨ (x = g.next ∧ y ∈ ns) := by
  rw [attachAdjacent ok]
  exact or_congr_left (by rw [← addNodeAdjacent sound]; rfl)

theorem attachRest (ok : g.attach m ns = .ok next) :
    next.next = g.next ∧ next.inputs = g.inputs ∧ next.outputs = g.outputs ∧
      next.bases = g.bases ∧ next.cliffords = g.cliffords := by
  induction ns generalizing g with
  | nil =>
    cases ok
    exact ⟨rfl, rfl, rfl, rfl, rfl⟩
  | cons a rest ih =>
    obtain ⟨h, first, later⟩ := attachCons.mp ok
    obtain ⟨counter, inputs, outputs, bases, cliffords⟩ := addEdgeRest first
    rw [← counter, ← inputs, ← outputs, ← bases, ← cliffords]
    exact ih later

theorem attachSound (sound : g.Sound) (ok : g.attach m ns = .ok next) : next.Sound := by
  induction ns generalizing g with
  | nil =>
    cases ok
    exact sound
  | cons a rest ih =>
    obtain ⟨h, first, later⟩ := attachCons.mp ok
    exact ih (addEdgeSound sound first) later

end Graph

namespace Circuit
variable {R : Type} [Scalar R]

namespace Growth
variable {s s' : Growth R}

theorem frontOfOk {q n : Int} : s.frontOf q = .ok n ↔ s.front.get? q = some n := by
  unfold frontOf
  cases s.front.get? q <;> simp

inductive Step : Growth R → Gate R → Growth R → Prop
  | j {s q angle n g} (onto : s.front.get? q = some n)
      (joined : s.graph.addNode.2.attach s.graph.next [n] = .ok g) :
      Step s (.j q angle) ⟨{ g with bases := g.bases.set n (.planar .xy (-angle)) },
        s.front.set q s.graph.next, s.flow.set n (.singleton s.graph.next)⟩
  | cz {s p q rest a b g} (first : s.front.get? p = some a) (second : s.front.get? q = some b)
      (joined : s.graph.attach b [a] = .ok g) : Step s (.cz (p :: q :: rest)) { s with graph := g }
  | gadget {s qubits angle ns g} (onto : List.Forall₂ (fun q n => s.front.get? q = some n) qubits ns)
      (joined : Graph.attach { s.graph.addNode.2 with
        bases := s.graph.bases.set s.graph.next (.planar .yz angle) } s.graph.next ns = .ok g) :
      Step s (.phaseGadget qubits angle)
        ⟨g, s.front, s.flow.set s.graph.next (.singleton s.graph.next)⟩

theorem addJSource {q : Int} {angle : R} (ok : s.addJ q angle = .ok s') : Step s (.j q angle) s' := by
  unfold addJ at ok
  simp only [Result.bindOk, Result.pureOk] at ok
  obtain ⟨n, onto, g, joined, h, based, rfl⟩ := ok
  obtain ⟨_, _, rfl⟩ := Graph.assignBasisOk.mp based
  exact .j (frontOfOk.mp onto) (Graph.attachCons.mpr ⟨g, joined, rfl⟩)

theorem operandOk {qubits : List Int} {i : Nat} {q : Int} :
    operand qubits i = .ok q ↔ qubits[i]? = some q := by
  unfold operand
  cases qubits[i]? <;> simp

theorem addCzSource {qubits : List Int} (ok : s.addCz qubits = .ok s') : Step s (.cz qubits) s' := by
  unfold addCz at ok
  simp only [Result.bindOk, Result.pureOk, operandOk, frontOfOk] at ok
  obtain ⟨p, first, a, onA, q, second, b, onB, g, joined, rfl⟩ := ok
  cases qubits with
  | nil => cases first
  | cons p' rest =>
    cases rest with
    | nil => cases second
    | cons q' rest =>
      cases first
      cases second
      exact .cz onA onB (Graph.attachCons.mpr ⟨g, joined, rfl⟩)

theorem hangSource {qubits : List Int} {m : Int} {g next : Graph R}
    (ok : qubits.foldlM (fun (g : Graph R) q => do g.addEdge (← s.frontOf q) m) g = .ok next) :
    ∃ ns, List.Forall₂ (fun q n => s.front.get? q = some n) qubits ns ∧ g.attach m ns = .ok next := by
  induction qubits generalizing g with
  | nil => exact ⟨[], .nil, ok⟩
  | cons q rest ih =>
    simp only [List.foldlM_cons, Result.bindOk, frontOfOk] at ok
    obtain ⟨h, ⟨n, onto, joined⟩, later⟩ := ok
    obtain ⟨ns, fronts, all⟩ := ih later
    exact ⟨n :: ns, .cons onto fronts, Graph.attachCons.mpr ⟨h, joined, all⟩⟩

theorem addGadgetSource {qubits : List Int} {angle : R} (ok : s.addGadget qubits angle = .ok s') :
    Step s (.phaseGadget qubits angle) s' := by
  unfold addGadget at ok
  simp only [Result.bindOk, Result.pureOk] at ok
  obtain ⟨h, based, g, hung, rfl⟩ := ok
  obtain ⟨_, _, rfl⟩ := Graph.assignBasisOk.mp based
  obtain ⟨ns, onto, joined⟩ := hangSource hung
  exact .gadget onto joined

end Growth

omit [Scalar R] in
theorem refuseOk {α : Type} {x : Except Fault α} {a : α} :
    (refuse x : Except (Refusal R) α) = .ok a ↔ x = .ok a := by
  cases x <;> simp [refuse]

theorem instructionSource {s s' : Growth R} {gate : Gate R} (ok : addInstruction s gate = .ok s') :
    Growth.Step s gate s' := by
  unfold addInstruction at ok
  split at ok
  · exact Growth.addJSource (refuseOk.mp ok)
  · exact Growth.addCzSource (refuseOk.mp ok)
  · exact Growth.addGadgetSource (refuseOk.mp ok)
  · cases ok

theorem instructionsInduction {P : List (Gate R) → Growth R → Prop} {s s' : Growth R}
    (step : ∀ done gate t t', P done t → Growth.Step t gate t' → P (done ++ [gate]) t')
    {done gates : List (Gate R)} (now : P done s) (ok : gates.foldlM addInstruction s = .ok s') :
    P (done ++ gates) s' := by
  induction gates generalizing s done with
  | nil =>
    cases ok
    rw [List.append_nil]
    exact now
  | cons gate rest ih =>
    rw [List.foldlM_cons, Result.bindOk] at ok
    obtain ⟨t, first, later⟩ := ok
    have next := ih (step done gate s t now (instructionSource first)) later
    rw [List.append_assoc] at next
    exact next

namespace Growth
variable {s s' : Growth R} {qubits : Nat}

def seed (qubits : Nat) : Growth R :=
  let own : Table Int := .ofList ((List.range qubits).map fun i : Nat => ((i : Int), (i : Int)))
  ⟨⟨qubits, .ofList ((List.range qubits).map Int.ofNat),
    .ofList ((List.range qubits).map fun i : Nat => ((i : Int), ∅)), own, ∅, ∅, ∅⟩, own, ∅⟩

theorem ofRangeEntries {α : Type} {f : Nat → α} :
    (Table.ofList ((List.range qubits).map fun i : Nat => ((i : Int), f i))).entries =
      (List.range qubits).map fun i : Nat => ((i : Int), f i) := by
  apply Table.entriesOfList
  rw [List.map_map]
  exact List.nodup_range.map fun i j eq => Int.ofNat.inj eq

theorem ofRangeSucc {α : Type} {f : Nat → α} :
    Table.ofList ((List.range (qubits + 1)).map fun i : Nat => ((i : Int), f i)) =
      (Table.ofList ((List.range qubits).map fun i : Nat => ((i : Int), f i))).set qubits (f qubits) := by
  rw [List.range_succ, List.map_append, Table.ofList, List.foldl_append]
  rfl

theorem seedSucc : (seed (qubits + 1) : Growth R) =
    ⟨{ (seed qubits).graph.addNode.2 with
      inputs := (seed qubits : Growth R).graph.inputs.set qubits qubits },
      (seed qubits : Growth R).front.set qubits qubits, ∅⟩ := by
  have nodes : NodeSet.ofList ((List.range (qubits + 1)).map Int.ofNat) =
      (NodeSet.ofList ((List.range qubits).map Int.ofNat)).insert qubits := by
    refine NodeSet.eqOfMem fun n => ?_
    rw [NodeSet.memInsert, NodeSet.memOfList, NodeSet.memOfList, List.range_succ, List.map_append, List.mem_append,
      or_comm]
    exact or_congr_left List.mem_singleton
  unfold seed
  rw [ofRangeSucc, ofRangeSucc, nodes]
  rfl

theorem seedSize : (seed qubits : Growth R).graph.inputs.size = qubits := by
  have entries : (seed qubits : Growth R).graph.inputs.entries =
      (List.range qubits).map fun k : Nat => ((k : Int), (k : Int)) := ofRangeEntries
  rw [Table.size, entries, List.length_map, List.length_range]

theorem startSeed : (start qubits : Except Fault (Growth R)) = .ok (seed qubits) := by
  induction qubits with
  | zero => rfl
  | succ i ih =>
    have entries : (seed i : Growth R).graph.inputs.entries =
        (List.range i).map fun k : Nat => ((k : Int), (k : Int)) := ofRangeEntries
    have size : (seed i : Growth R).graph.inputs.size = i := seedSize
    have here : (i : Int) ∈ (seed i : Growth R).graph.addNode.2.nodes :=
      Graph.addNodeNodes.mpr (.inl rfl)
    have new : (i : Int) ∉ (seed i : Growth R).graph.inputs.keys := by
      rw [Table.keys, entries, List.map_map, List.mem_map]
      intro given
      obtain ⟨k, below, eq⟩ := given
      cases eq
      exact absurd (List.mem_range.mp below) (Nat.lt_irrefl i)
    have input : (seed i : Growth R).graph.addNode.2.registerInput i =
        .ok ((i : Int), (seed (i + 1)).graph) := by
      refine Graph.registerInputOk.mpr ⟨here, new, congrArg Int.ofNat size.symm, ?_⟩
      rw [seedSucc]
      change _ = { (seed i : Growth R).graph.addNode.2 with
        inputs := (seed i : Growth R).graph.inputs.set i (seed i : Growth R).graph.inputs.size }
      rw [size]
    unfold start at ih ⊢
    rw [List.range_succ, List.foldlM_append, ih, Result.bindOk]
    refine ⟨seed i, rfl, ?_⟩
    simp only [List.foldlM_cons, List.foldlM_nil, Result.bindOk, Result.pureOk]
    refine ⟨_, ⟨_, input, rfl⟩, ?_⟩
    rw [seedSucc]
    rfl

/- Nodes without a basis are those that qubits are on, each on its own; nodes with one are those that
the flow speaks of. -/
structure Grown (qubits : Nat) (s : Growth R) : Prop where
  sound : s.graph.Sound
  inputs : s.graph.inputs = (seed qubits : Growth R).graph.inputs
  outputs : s.graph.outputs = ∅
  cliffords : s.graph.cliffords = ∅
  qubitsKept : s.front.keys = (seed qubits : Growth R).front.keys
  frontThere : ∀ q n, s.front.get? q = some n → n ∈ s.graph.nodes
  frontFree : ∀ q n, s.front.get? q = some n → n ∉ s.graph.bases.keys
  frontApart : ∀ p q n, s.front.get? p = some n → s.front.get? q = some n → p = q
  restBased : ∀ n ∈ s.graph.nodes, n ∉ s.graph.bases.keys → ∃ q, s.front.get? q = some n
  flowKeys : ∀ n, n ∈ s.flow.keys ↔ n ∈ s.graph.bases.keys

theorem seedGet {q n : Int} : (seed qubits : Growth R).front.get? q = some n ↔
    n = q ∧ 0 ≤ q ∧ q < qubits := by
  have entries : (seed qubits : Growth R).front.entries =
      (List.range qubits).map fun k : Nat => ((k : Int), (k : Int)) := ofRangeEntries
  rw [← Table.memEntries, entries, List.mem_map]
  constructor
  · intro given
    obtain ⟨k, below, eq⟩ := given
    cases eq
    have := List.mem_range.mp below
    omega
  · intro given
    obtain ⟨same, low, high⟩ := given
    refine ⟨q.toNat, List.mem_range.mpr (by omega), ?_⟩
    rw [same, Int.toNat_of_nonneg low]

theorem seedNode {n : Int} : n ∈ (seed qubits : Growth R).graph.nodes ↔
    0 ≤ n ∧ n < qubits := by
  refine NodeSet.memOfList.trans (List.mem_map.trans ?_)
  constructor
  · intro given
    obtain ⟨k, below, eq⟩ := given
    have same : (k : Int) = n := eq
    have := List.mem_range.mp below
    omega
  · intro given
    obtain ⟨low, high⟩ := given
    exact ⟨n.toNat, List.mem_range.mpr (by omega), Int.toNat_of_nonneg low⟩

theorem seedKeyed {n : Int} : n ∈ (seed qubits : Growth R).graph.nodes ↔
    n ∈ (seed qubits : Growth R).graph.adjacency.keys := by
  have entries : (seed qubits : Growth R).graph.adjacency.entries =
      (List.range qubits).map fun k : Nat => ((k : Int), ∅) := ofRangeEntries
  rw [Table.keys, entries, List.map_map]
  exact NodeSet.memOfList

theorem seedAdjacent {n : Int} : (seed qubits : Growth R).graph.adjacent n = ∅ := by
  have entries : (seed qubits : Growth R).graph.adjacency.entries =
      (List.range qubits).map fun k : Nat => ((k : Int), ∅) := ofRangeEntries
  unfold Graph.adjacent
  cases found : (seed qubits : Growth R).graph.adjacency.get? n with
  | none => rfl
  | some a =>
    have mem := Table.memEntries.mpr found
    rw [entries, List.mem_map] at mem
    obtain ⟨_, _, eq⟩ := mem
    cases eq
    rfl

theorem seedGrown : Grown qubits (seed qubits : Growth R) where
  sound :=
    { keyed n := seedKeyed
      numbered n mem := (seedNode.mp mem).2
      joined a b mem := by
        rw [seedAdjacent] at mem
        exact absurd mem NodeSet.notMemEmpty
      loopless a := by
        rw [seedAdjacent]
        exact NodeSet.notMemEmpty
      inputsThere n mem := by
        obtain ⟨q, found⟩ := Table.memKeys.mp mem
        have inside := (seedGet (R := R)).mp found
        exact seedNode.mpr inside.2
      outputsThere n mem := by cases mem
      basesThere n mem := by cases mem
      outputsFree n mem := by cases mem }
  inputs := rfl
  outputs := rfl
  cliffords := rfl
  qubitsKept := rfl
  frontThere q n found := by
    obtain ⟨rfl, inside⟩ := seedGet.mp found
    exact seedNode.mpr inside
  frontFree q n found mem := by cases mem
  frontApart p q n atP atQ := by
    obtain ⟨rfl, _⟩ := seedGet.mp atP
    exact (seedGet.mp atQ).1
  restBased n mem free := ⟨n, seedGet.mpr ⟨rfl, seedNode.mp mem⟩⟩
  flowKeys n := Iff.rfl

theorem Grown.fresh (grown : Grown qubits s) {q n : Int} (found : s.front.get? q = some n) :
    n ≠ s.graph.next := by
  intro same
  exact grown.sound.nextFresh (same ▸ grown.frontThere q n found)

theorem Grown.freshBase (grown : Grown qubits s) : s.graph.next ∉ s.graph.bases.keys := fun mem =>
  grown.sound.nextFresh (grown.sound.basesThere _ mem)

theorem Grown.noFlow (grown : Grown qubits s) {n : Int} (free : n ∉ s.graph.bases.keys) :
    s.flow.get? n = none := by
  rw [Table.getNone, grown.flowKeys]
  exact free

theorem Grown.j (grown : Grown qubits s) {q n : Int} {angle : R} {g : Graph R}
    (onto : s.front.get? q = some n) (joined : s.graph.addNode.2.attach s.graph.next [n] = .ok g) :
    Grown qubits ⟨{ g with bases := g.bases.set n (.planar .xy (-angle)) },
      s.front.set q s.graph.next, s.flow.set n (.singleton s.graph.next)⟩ := by
  obtain ⟨_, inputs, outputs, bases, cliffords⟩ := Graph.attachRest joined
  have bases : g.bases = s.graph.bases := bases
  have outputs : g.outputs = ∅ := outputs.trans grown.outputs
  have keys : ∀ m, m ∈ g.nodes ↔ m = s.graph.next ∨ m ∈ s.graph.nodes := fun _ =>
    Graph.attachNewKeys joined
  have there : n ∈ g.nodes := (keys n).mpr (.inr (grown.frontThere q n onto))
  have based : g.assignBasis n (.planar .xy (-angle)) =
      .ok { g with bases := g.bases.set n (.planar .xy (-angle)) } :=
    Graph.assignBasisOk.mpr ⟨there, by simp [outputs], rfl⟩
  have sound := Graph.assignBasisSound
    (Graph.attachSound (Graph.addNodeSound grown.sound) joined) based
  have notFresh : n ≠ s.graph.next := grown.fresh onto
  refine ⟨sound, inputs.trans grown.inputs, outputs, cliffords.trans grown.cliffords, ?_, ?_, ?_, ?_, ?_, ?_⟩
  · rw [Table.keysSetOld (Table.memKeys.mpr ⟨n, onto⟩)]
    exact grown.qubitsKept
  · intro p m found
    rw [Table.getSet] at found
    split at found
    · cases found
      exact (keys _).mpr (.inl rfl)
    · exact (keys m).mpr (.inr (grown.frontThere p m found))
  · intro p m found measured
    rw [Table.getSet] at found
    rcases Table.memKeysSet.mp measured with same | old
    · split at found
      · cases found
        exact notFresh same.symm
      · rename_i other
        exact other (grown.frontApart p q m found (same ▸ onto))
    · rw [bases] at old
      split at found
      · cases found
        exact grown.freshBase old
      · exact grown.frontFree p m found old
  · intro p p' m atP atP'
    rw [Table.getSet] at atP atP'
    split at atP
    · cases atP
      split at atP'
      · rename_i same same'
        exact same.trans same'.symm
      · exact absurd rfl (grown.fresh atP')
    · split at atP'
      · cases atP'
        exact absurd rfl (grown.fresh atP)
      · exact grown.frontApart p p' m atP atP'
  · intro m here free
    rw [Table.memKeysSet, not_or, bases] at free
    rcases (keys m).mp here with rfl | old
    · exact ⟨q, by rw [Table.getSet, if_pos rfl]⟩
    · obtain ⟨p, found⟩ := grown.restBased m old free.2
      have other : p ≠ q := by
        intro same
        rw [same, onto] at found
        exact free.1 (Option.some.inj found).symm
      exact ⟨p, by rw [Table.getSet, if_neg other, found]⟩
  · intro m
    rw [Table.memKeysSet, Table.memKeysSet, bases, grown.flowKeys]

theorem Grown.cz (grown : Grown qubits s) {a b : Int} {g : Graph R}
    (joined : s.graph.attach b [a] = .ok g) : Grown qubits { s with graph := g } := by
  obtain ⟨_, inputs, outputs, bases, cliffords⟩ := Graph.attachRest joined
  have keys : ∀ m, m ∈ g.nodes ↔ m ∈ s.graph.nodes := fun m => Graph.attachKeys joined
  refine ⟨Graph.attachSound grown.sound joined, inputs.trans grown.inputs, outputs.trans grown.outputs,
    cliffords.trans grown.cliffords, grown.qubitsKept, ?_, ?_, grown.frontApart, ?_, ?_⟩
  · exact fun q n found => (keys n).mpr (grown.frontThere q n found)
  · intro q n found
    rw [bases]
    exact grown.frontFree q n found
  · intro n here free
    rw [bases] at free
    exact grown.restBased n ((keys n).mp here) free
  · intro n
    rw [bases]
    exact grown.flowKeys n

theorem Grown.newBased (grown : Grown qubits s) (basis : Basis R) :
    s.graph.addNode.2.assignBasis s.graph.next basis =
      .ok { s.graph.addNode.2 with bases := s.graph.bases.set s.graph.next basis } := by
  refine Graph.assignBasisOk.mpr ⟨Graph.addNodeNodes.mpr (.inl rfl), ?_, rfl⟩
  intro output
  exact grown.sound.nextFresh (grown.sound.outputsThere _ output)

theorem Grown.gadget (grown : Grown qubits s) {ns : List Int} {angle : R} {g : Graph R}
    (joined : Graph.attach { s.graph.addNode.2 with
      bases := s.graph.bases.set s.graph.next (.planar .yz angle) } s.graph.next ns = .ok g) :
    Grown qubits ⟨g, s.front, s.flow.set s.graph.next (.singleton s.graph.next)⟩ := by
  obtain ⟨_, inputs, outputs, bases, cliffords⟩ := Graph.attachRest joined
  have bases : g.bases = s.graph.bases.set s.graph.next (.planar .yz angle) := bases
  have keys : ∀ m, m ∈ g.nodes ↔ m = s.graph.next ∨ m ∈ s.graph.nodes := fun _ =>
    Graph.attachNewKeys joined
  have sound := Graph.attachSound
    (Graph.assignBasisSound (Graph.addNodeSound grown.sound) (grown.newBased (.planar .yz angle))) joined
  refine ⟨sound, inputs.trans grown.inputs, outputs.trans grown.outputs,
    cliffords.trans grown.cliffords, grown.qubitsKept, ?_, ?_, grown.frontApart, ?_, ?_⟩
  · exact fun q n found => (keys n).mpr (.inr (grown.frontThere q n found))
  · intro q n found measured
    rw [bases, Table.memKeysSet] at measured
    rcases measured with same | old
    · exact grown.fresh found same
    · exact grown.frontFree q n found old
  · intro n here free
    rw [bases, Table.memKeysSet, not_or] at free
    rcases (keys n).mp here with same | old
    · exact absurd same free.1
    · exact grown.restBased n old free.2
  · intro n
    rw [bases, Table.memKeysSet, Table.memKeysSet, grown.flowKeys]

theorem Grown.step (grown : Grown qubits s) {gate : Gate R} (step : Step s gate s') :
    Grown qubits s' := by
  cases step with
  | j onto joined => exact grown.j onto joined
  | cz _ _ joined => exact grown.cz joined
  | gadget _ joined => exact grown.gadget joined

theorem grownRun {P : List (Gate R) → Growth R → Prop} {gates : List (Gate R)} (start : P [] (seed qubits))
    (step : ∀ done gate t t', Grown qubits t → P done t → Step t gate t' → P (done ++ [gate]) t')
    (ok : gates.foldlM addInstruction (seed qubits) = .ok s) : Grown qubits s ∧ P gates s := by
  have kept : ∀ done gate t t', (Grown qubits t ∧ P done t) → Step t gate t' →
      Grown qubits t' ∧ P (done ++ [gate]) t' := fun done gate t t' given taken =>
    ⟨given.1.step taken, step done gate t t' given.1 given.2 taken⟩
  exact instructionsInduction kept ⟨seedGrown, start⟩ ok

theorem outputsFrom {entries : List (Int × Int)} {g next : Graph R}
    (ok : entries.foldlM (fun g e => g.registerOutput e.2 e.1) g = .ok next) :
    next = { g with outputs := next.outputs } ∧
      next.outputs.entries = g.outputs.entries ++ entries.map Prod.swap := by
  induction entries generalizing g with
  | nil =>
    cases ok
    simp
  | cons e rest ih =>
    rw [List.foldlM_cons, Result.bindOk] at ok
    obtain ⟨h, first, later⟩ := ok
    obtain ⟨_, new, _, _, _, rfl⟩ := Graph.registerOutputOk.mp first
    obtain ⟨same, entries⟩ := ih later
    refine ⟨same, ?_⟩
    rw [entries, Table.entriesSet new, List.append_assoc]
    rfl

theorem outputsSound {entries : List (Int × Int)} {g next : Graph R} (sound : g.Sound)
    (ok : entries.foldlM (fun g e => g.registerOutput e.2 e.1) g = .ok next) : next.Sound := by
  induction entries generalizing g with
  | nil =>
    cases ok
    exact sound
  | cons e rest ih =>
    rw [List.foldlM_cons, Result.bindOk] at ok
    obtain ⟨h, first, later⟩ := ok
    exact ih (Graph.registerOutputSound sound first) later

theorem Grown.finish (grown : Grown qubits s) {g : Graph R} (ok : s.finish = .ok g) :
    g = { s.graph with outputs := g.outputs } ∧ g.outputs.size = s.front.size ∧
      ∀ n q, g.outputs.get? n = some q ↔ s.front.get? q = some n := by
  obtain ⟨same, entries⟩ := outputsFrom ok
  have entries : g.outputs.entries = s.front.entries.map Prod.swap := by
    rw [entries, grown.outputs]
    rfl
  refine ⟨same, ?_, ?_⟩
  · rw [Table.size, entries, List.length_map]
    rfl
  · intro n q
    rw [← Table.memEntries, ← Table.memEntries, entries]
    simp

theorem Grown.innerBased (grown : Grown qubits s) {g : Graph R} (ok : s.finish = .ok g) {n : Int} :
    n ∈ g.innerNodes ↔ n ∈ s.graph.bases.keys := by
  obtain ⟨same, _, outputs⟩ := grown.finish ok
  have nodes : g.nodes = s.graph.nodes := by rw [same]
  rw [Graph.memInnerNodes, nodes]
  constructor
  · intro given
    obtain ⟨here, inner⟩ := given
    by_cases based : n ∈ s.graph.bases.keys
    · exact based
    · obtain ⟨q, found⟩ := grown.restBased n here based
      exact absurd (Table.memKeys.mpr ⟨q, (outputs n q).mpr found⟩) inner
  · intro measured
    refine ⟨grown.sound.basesThere n measured, fun output => ?_⟩
    obtain ⟨q, found⟩ := Table.memKeys.mp output
    exact grown.frontFree q n ((outputs n q).mp found) measured

end Growth

theorem toGraphOk {c : Circuit R} {g : Graph R} {flow : Table NodeSet} :
    c.toGraph = .ok (g, flow) ↔ ∃ gates s, c.instructions = .ok gates ∧
      gates.foldlM addInstruction (Growth.seed c.qubits.toNat) = .ok s ∧ s.finish = .ok g ∧
      flow = s.flow := by
  unfold toGraph graphOf
  simp only [Result.bindOk, Result.pureOk, refuseOk, Growth.startSeed, Except.ok.injEq]
  constructor
  · rintro ⟨gates, read, _, rfl, s, grown, _, finished, eq⟩
    cases eq
    exact ⟨gates, s, read, grown, finished, rfl⟩
  · rintro ⟨gates, s, read, grown, finished, rfl⟩
    exact ⟨gates, read, _, rfl, s, grown, g, finished, rfl⟩

theorem toGraphSource {c : Circuit R} {g : Graph R} {flow : Table NodeSet}
    (ok : c.toGraph = .ok (g, flow)) : ∃ gates s, c.instructions = .ok gates ∧
      gates.foldlM addInstruction (Growth.seed c.qubits.toNat) = .ok s ∧ s.finish = .ok g ∧
      flow = s.flow := toGraphOk.mp ok

end Circuit
end OneWay
