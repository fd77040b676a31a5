import Mathlib.Data.List.Nodup
import OneWay.Graph.Clifford
import OneWay.Proofs.Table

/-! The graphs that operations lead to from the empty one, refused operations included. Their edges go
both ways, join two different nodes and stay inside the graph, and what is said of nodes is said of
nodes that are there. -/
namespace OneWay

inductive Operation (R : Type) [Scalar R] where
  | addNode
  | addEdge (a b : Int)
  | removeNode (n : Int)
  | removeEdge (a b : Int)
  | registerInput (n : Int)
  | registerOutput (n q : Int)
  | assignBasis (n : Int) (basis : Basis R)
  | applyClifford (n : Int) (c : LocalClifford R)
  | expandCliffords

variable {R : Type} [Scalar R]

def Operation.edit : Operation R → Edit R Unit
  | .addNode => discard Edit.addNode
  | .addEdge a b => Edit.addEdge a b
  | .removeNode n => Edit.step fun g => g.removeNode n
  | .removeEdge a b => Edit.step fun g => g.removeEdge a b
  | .registerInput n => discard (Edit.registerInput n)
  | .registerOutput n q => Edit.registerOutput n q
  | .assignBasis n basis => Edit.assignBasis n basis
  | .applyClifford n c => Graph.applyClifford n c
  | .expandCliffords => discard Graph.expandCliffords

namespace Graph

def perform (g : Graph R) (op : Operation R) : Graph R := (op.edit.apply g).2

def after (ops : List (Operation R)) : Graph R := ops.foldl perform empty

def Reachable (g : Graph R) : Prop := ∃ ops, after ops = g

theorem reachableInduction {P : Graph R → Prop} (start : P empty)
    (step : ∀ g op, P g → P (g.perform op)) {g : Graph R} (reach : g.Reachable) : P g := by
  obtain ⟨ops, rfl⟩ := reach
  have run : ∀ (ops : List (Operation R)) (g : Graph R), P g → P (ops.foldl perform g) := by
    intro ops
    induction ops with
    | nil => exact fun g now => now
    | cons op rest ih => exact fun g now => ih (g.perform op) (step g op now)
  exact run ops empty start

end Graph

namespace Edit
variable {α β : Type}

theorem applyBind {e : Edit R α} {f : α → Edit R β} {g : Graph R} :
    (e >>= f).apply g = match e.apply g with
      | (.ok a, left) => (f a).apply left
      | (.error x, left) => (.error x, left) := by
  show (ExceptT.run (e >>= f)).run g = _
  unfold apply
  rw [ExceptT.run_bind, StateT.run_bind]
  cases h : StateT.run (ExceptT.run e) g with
  | mk result left => cases result <;> rfl

theorem applyGet {g : Graph R} : (get : Edit R (Graph R)).apply g = (.ok g, g) := rfl

theorem applyLift {x : Except Fault α} {g : Graph R} : (lift x).apply g = (x, g) := rfl

theorem applyStep {f : Graph R → Except Fault (Graph R)} {g : Graph R} :
    (step f).apply g = match f g with
      | .ok next => (.ok (), next)
      | .error x => (.error x, g) := by
  unfold step
  simp only [applyBind, applyGet, applyLift]
  cases f g <;> rfl

theorem applyStepWith {f : Graph R → Except Fault (α × Graph R)} {g : Graph R} :
    (stepWith f).apply g = match f g with
      | .ok (a, next) => (.ok a, next)
      | .error x => (.error x, g) := by
  unfold stepWith
  simp only [applyBind, applyGet, applyLift]
  cases f g <;> rfl

def Keeps (P : Graph R → Prop) (e : Edit R α) : Prop := ∀ g, P g → P (e.apply g).2

variable {P : Graph R → Prop}

theorem keepsPure {a : α} : Keeps P (pure a : Edit R α) := fun _ now => now

theorem keepsGet : Keeps P (get : Edit R (Graph R)) := fun _ now => now

theorem keepsLift {x : Except Fault α} : Keeps P (lift x : Edit R α) := fun _ now => now

theorem keepsBind {e : Edit R α} {f : α → Edit R β} (first : Keeps P e)
    (rest : ∀ a, Keeps P (f a)) : Keeps P (e >>= f) := by
  intro g now
  have left := first g now
  rw [applyBind]
  cases h : e.apply g with
  | mk result next =>
    rw [h] at left
    cases result with
    | ok a => exact rest a next left
    | error x => exact left

theorem keepsDiscard {e : Edit R α} (h : Keeps P e) : Keeps P (discard e) :=
  keepsBind h fun _ => keepsPure

theorem keepsStep {f : Graph R → Except Fault (Graph R)}
    (each : ∀ g next, P g → f g = .ok next → P next) : Keeps P (step f) := by
  intro g now
  rw [applyStep]
  cases h : f g with
  | ok next => exact each g next now h
  | error x => exact now

theorem keepsStepWith {f : Graph R → Except Fault (α × Graph R)}
    (each : ∀ g a next, P g → f g = .ok (a, next) → P next) : Keeps P (stepWith f) := by
  intro g now
  rw [applyStepWith]
  cases h : f g with
  | ok out => exact each g out.1 out.2 now h
  | error x => exact now

theorem keepsModify {f : Graph R → Graph R} (each : ∀ g, P g → P (f g)) :
    Keeps P (modify f : Edit R PUnit) := fun g now => each g now

theorem keepsMapM {f : α → Edit R β} (each : ∀ a, Keeps P (f a)) (xs : List α) :
    Keeps P (xs.mapM f) := by
  induction xs with
  | nil => exact keepsPure
  | cons x xs ih =>
    rw [List.mapM_cons]
    exact keepsBind (each x) fun _ => keepsBind ih fun _ => keepsPure

theorem keepsForM {f : α → Edit R PUnit} (each : ∀ a, Keeps P (f a)) (xs : List α) :
    Keeps P (xs.forM f) := by
  induction xs with
  | nil => exact keepsPure
  | cons x xs ih => exact keepsBind (each x) fun _ => ih

end Edit

namespace Graph
variable {g next : Graph R} {a b n q : Int}

@[simp] theorem memInputNodes : n ∈ g.inputNodes ↔ n ∈ g.inputs.keys := NodeSet.memOfList

@[simp] theorem memOutputNodes : n ∈ g.outputNodes ↔ n ∈ g.outputs.keys := NodeSet.memOfList

@[simp] theorem memInnerNodes :
    n ∈ g.innerNodes ↔ n ∈ g.nodes ∧ n ∉ g.outputs.keys := by
  simp [innerNodes]

@[simp] theorem requireNodeOk {u : Unit} : g.requireNode n = .ok u ↔ n ∈ g.nodes := by
  unfold requireNode
  by_cases h : n ∈ g.nodes <;> simp [h]

theorem rowOk {s : NodeSet} : g.row n = .ok s ↔ n ∈ g.adjacency.keys ∧ s = g.adjacent n := by
  rw [row, adjacent, Table.memKeys]
  cases g.adjacency.get? n <;> simp [eq_comm]

theorem notAdjacent (absent : a ∉ g.adjacency.keys) : b ∉ g.adjacent a := by
  simp [adjacent, Table.getNone.mpr absent]

theorem adjacentKey (mem : b ∈ g.adjacent a) : a ∈ g.adjacency.keys := by
  by_contra absent
  exact notAdjacent absent mem

theorem adjacentSetAdjacent {s : NodeSet} :
    (g.setAdjacent n s).adjacent a = if a = n then s else g.adjacent a := by
  unfold adjacent setAdjacent
  rw [Table.getSet]
  split <;> rfl

theorem neighborsOk {s : NodeSet} :
    g.neighbors n = .ok s ↔ n ∈ g.nodes ∧ n ∈ g.adjacency.keys ∧ s = g.adjacent n := by
  simp only [neighbors, Result.bindOk, requireNodeOk, rowOk, exists_const]

theorem addEdgeOk : g.addEdge a b = .ok next ↔
    a ∈ g.nodes ∧ b ∈ g.nodes ∧ (b ∈ g.adjacency.keys ∧ a ∈ g.adjacency.keys) ∧
      ¬ (a ∈ g.adjacent b ∨ b ∈ g.adjacent a) ∧ a ≠ b ∧
      next = (g.setAdjacent a ((g.adjacent a).insert b)).setAdjacent b ((g.adjacent b).insert a) := by
  unfold addEdge
  simp only [Result.bindOk, Result.pureOk, Result.refuseIfOk, requireNodeOk, rowOk, exists_const]
  constructor
  · rintro ⟨hereA, hereB, _, ⟨rowB, rfl⟩, _, ⟨rowA, rfl⟩, apart, different, rfl⟩
    exact ⟨hereA, hereB, ⟨rowB, rowA⟩, apart, different, rfl⟩
  · rintro ⟨hereA, hereB, ⟨rowB, rowA⟩, apart, different, rfl⟩
    exact ⟨hereA, hereB, _, ⟨rowB, rfl⟩, _, ⟨rowA, rfl⟩, apart, different, rfl⟩

theorem removeEdgeDone (ok : g.removeEdge a b = .ok next) : a ∈ g.adjacency.keys ∧ b ∈ g.adjacency.keys ∧
    next = (g.setAdjacent a ((g.adjacent a).erase b)).setAdjacent b
      (((g.setAdjacent a ((g.adjacent a).erase b)).adjacent b).erase a) := by
  unfold removeEdge at ok
  simp only [Result.bindOk, Result.pureOk, Result.refuseIfOk, requireNodeOk, rowOk, exists_const] at ok
  obtain ⟨_, _, _, ⟨rowB, rfl⟩, _, ⟨rowA, rfl⟩, _, _, ⟨_, rfl⟩, rfl⟩ := ok
  exact ⟨rowA, rowB, rfl⟩

theorem removeNodeOk : g.removeNode n = .ok next ↔
    n ∈ g.nodes ∧ n ∉ g.inputs.keys ∧ n ∈ g.adjacency.keys ∧
      ∃ h, (g.adjacent n).toList.foldlM (detach n) g = .ok h ∧ next = { h with
        nodes := h.nodes.erase n
        adjacency := h.adjacency.erase n
        outputs := h.outputs.erase n
        bases := h.bases.erase n
        cliffords := h.cliffords.erase n } := by
  unfold removeNode
  simp only [Result.bindOk, Result.pureOk, Result.refuseIfOk, requireNodeOk, rowOk, exists_const,
    Table.containsIff]
  constructor
  · rintro ⟨here, inner, _, ⟨known, rfl⟩, h, detached, rfl⟩
    exact ⟨here, inner, known, h, detached, rfl⟩
  · rintro ⟨here, inner, known, h, detached, rfl⟩
    exact ⟨here, inner, _, ⟨known, rfl⟩, h, detached, rfl⟩

theorem registerInputOk : g.registerInput n = .ok (q, next) ↔
    n ∈ g.nodes ∧ n ∉ g.inputs.keys ∧ q = g.inputs.size ∧
      next = { g with inputs := g.inputs.set n g.inputs.size } := by
  unfold registerInput
  simp only [Result.bindOk, Result.pureOk, Result.refuseIfOk, requireNodeOk, exists_const,
    Table.containsIff, Prod.mk.injEq]
  exact and_congr_right fun _ => and_congr_right fun _ => and_congr eq_comm eq_comm

theorem registerOutputOk : g.registerOutput n q = .ok next ↔
    n ∈ g.nodes ∧ n ∉ g.outputs.keys ∧ n ∉ g.bases.keys ∧ ¬ (g.inputs.size : Int) ≤ q ∧
      q ∉ g.outputs.values ∧ next = { g with outputs := g.outputs.set n q } := by
  unfold registerOutput
  simp only [Result.bindOk, Result.pureOk, Result.refuseIfOk, requireNodeOk, exists_const,
    Table.containsIff]
  exact and_congr_right fun _ => and_congr_right fun _ => and_congr_right fun _ =>
    and_congr_right fun _ => and_congr_right fun _ => eq_comm

theorem assignBasisOk {basis : Basis R} : g.assignBasis n basis = .ok next ↔
    n ∈ g.nodes ∧ n ∉ g.outputs.keys ∧ next = { g with bases := g.bases.set n basis } := by
  unfold assignBasis
  simp only [Result.bindOk, Result.pureOk, Result.refuseIfOk, requireNodeOk, exists_const,
    Table.containsIff]
  exact and_congr_right fun _ => and_congr_right fun _ => eq_comm

theorem assignBasisRefused {basis : Basis R} (here : n ∈ g.nodes) (output : n ∈ g.outputs.keys) :
    g.assignBasis n basis = .error .basisOnOutput := by
  have node : g.requireNode n = .ok () := requireNodeOk.mpr here
  have read : g.outputs.contains n = true := Table.containsIff.mpr output
  simp [assignBasis, node, read, bind, Except.bind, throw, throwThe, MonadExceptOf.throw]

theorem addEdgeAdjacent (ok : g.addEdge a b = .ok next) {x y : Int} :
    y ∈ next.adjacent x ↔ y ∈ g.adjacent x ∨ (x = a ∧ y = b) ∨ (x = b ∧ y = a) := by
  obtain ⟨_, _, _, _, different, rfl⟩ := addEdgeOk.mp ok
  rw [adjacentSetAdjacent, adjacentSetAdjacent]
  by_cases atB : x = b
  · have atA : ¬ x = a := fun eq => different (eq.symm.trans atB)
    simp [atB, different.symm, or_comm]
  · by_cases atA : x = a
    · simp [atA, different, or_comm]
    · simp [atA, atB]

theorem removeEdgeAdjacent (ok : g.removeEdge a b = .ok next) {x y : Int} :
    y ∈ next.adjacent x ↔ y ∈ g.adjacent x ∧ ¬ (x = a ∧ y = b) ∧ ¬ (x = b ∧ y = a) := by
  obtain ⟨_, _, rfl⟩ := removeEdgeDone ok
  simp only [adjacentSetAdjacent]
  by_cases atB : x = b
  · by_cases atA : b = a
    · simp [atA, atB]
    · simp [atA, atB]
  · by_cases atA : x = a
    · simp [atA, atA ▸ atB]
    · simp [atA, atB]

theorem setAdjacentKeys {s : NodeSet} (here : n ∈ g.adjacency.keys) :
    a ∈ (g.setAdjacent n s).adjacency.keys ↔ a ∈ g.adjacency.keys := by
  refine Table.memKeysSet.trans ⟨?_, .inr⟩
  rintro (rfl | old)
  · exact here
  · exact old

structure Detached (n : Int) (ns : List Int) (g next : Graph R) : Prop where
  rest : ∃ adjacency, next = { g with adjacency := adjacency }
  keys : ∀ m, m ∈ next.adjacency.keys ↔ m ∈ g.adjacency.keys
  adjacent : ∀ a b, b ∈ next.adjacent a ↔ b ∈ g.adjacent a ∧ ¬ (a ∈ ns ∧ b = n)

theorem detachStep {m : Int} (known : m ∈ g.adjacency.keys) :
    ∃ next, detach n g m = .ok next ∧ Detached n [m] g next := by
  refine ⟨g.setAdjacent m ((g.adjacent m).erase n), ?_, ⟨_, rfl⟩, fun _ => setAdjacentKeys known, fun a b => ?_⟩
  · rw [detach, rowOk.mpr ⟨known, rfl⟩]
    rfl
  · rw [adjacentSetAdjacent, List.mem_singleton]
    by_cases same : a = m <;> simp [same]

theorem detachKnown {m : Int} (ok : detach n g m = .ok next) : m ∈ g.adjacency.keys := by
  obtain ⟨_, found, _⟩ := Result.bindOk.mp ok
  exact (rowOk.mp found).1

theorem detachTotal {ns : List Int} (known : ∀ m ∈ ns, m ∈ g.adjacency.keys) :
    ∃ next, ns.foldlM (detach n) g = .ok next := by
  induction ns generalizing g with
  | nil => exact ⟨g, rfl⟩
  | cons m ns ih =>
    obtain ⟨here, later⟩ := List.forall_mem_cons.mp known
    obtain ⟨mid, first, detached⟩ := detachStep (n := n) here
    obtain ⟨next, rest⟩ := ih (g := mid) fun k mem => (detached.keys k).mpr (later k mem)
    exact ⟨next, by rw [List.foldlM_cons, Result.bindOk]; exact ⟨mid, first, rest⟩⟩

theorem detachedAll {ns : List Int} (ok : ns.foldlM (detach n) g = .ok next) : Detached n ns g next := by
  induction ns generalizing g with
  | nil =>
    cases ok
    exact ⟨⟨_, rfl⟩, fun _ => Iff.rfl, by simp⟩
  | cons m ns ih =>
    rw [List.foldlM_cons, Result.bindOk] at ok
    obtain ⟨mid, first, ok⟩ := ok
    obtain ⟨mid', first', detached⟩ := detachStep (n := n) (detachKnown first)
    cases first.symm.trans first'
    obtain ⟨rest, keys, adjacent⟩ := ih ok
    obtain ⟨rest', keys', adjacent'⟩ := detached
    refine ⟨?_, fun k => (keys k).trans (keys' k), fun a b => ?_⟩
    · obtain ⟨_, rfl⟩ := rest'
      exact rest
    · rw [adjacent, adjacent', List.mem_singleton, List.mem_cons, and_assoc, or_and_right, not_or]

theorem removeNodeRest (ok : g.removeNode n = .ok next) : n ∈ g.nodes ∧ n ∉ g.inputs.keys ∧
    ∃ adjacency, next = { g with
      nodes := g.nodes.erase n
      adjacency := adjacency
      outputs := g.outputs.erase n
      bases := g.bases.erase n
      cliffords := g.cliffords.erase n } := by
  obtain ⟨here, inner, _, h, detached, rfl⟩ := removeNodeOk.mp ok
  obtain ⟨_, rfl⟩ := (detachedAll detached).rest
  exact ⟨here, inner, _, rfl⟩

theorem removeNodeKeys (ok : g.removeNode n = .ok next) {m : Int} :
    m ∈ next.adjacency.keys ↔ m ∈ g.adjacency.keys ∧ m ≠ n := by
  obtain ⟨_, _, _, h, detached, rfl⟩ := removeNodeOk.mp ok
  rw [Table.memKeysErase, (detachedAll detached).keys]

/- The neighbours of a node forget it; a node that had it in its row without being one would not. -/
theorem removeNodeAdjacent (ok : g.removeNode n = .ok next) {x y : Int} :
    y ∈ next.adjacent x ↔ (y ∈ g.adjacent x ∧ ¬ (x ∈ g.adjacent n ∧ y = n)) ∧ x ≠ n := by
  obtain ⟨_, _, _, h, detached, rfl⟩ := removeNodeOk.mp ok
  rw [NodeSet.memDef (s := g.adjacent n), ← (detachedAll detached).adjacent]
  simp only [adjacent, Table.getErase]
  by_cases gone : x = n <;> simp [gone]

structure Sound (g : Graph R) : Prop where
  keyed : ∀ n, n ∈ g.nodes ↔ n ∈ g.adjacency.keys
  numbered : ∀ n ∈ g.nodes, n < g.next
  joined : ∀ a b, b ∈ g.adjacent a → a ∈ g.adjacent b
  loopless : ∀ a, a ∉ g.adjacent a
  inputsThere : ∀ n ∈ g.inputs.keys, n ∈ g.nodes
  outputsThere : ∀ n ∈ g.outputs.keys, n ∈ g.nodes
  basesThere : ∀ n ∈ g.bases.keys, n ∈ g.nodes
  outputsFree : ∀ n ∈ g.outputs.keys, n ∉ g.bases.keys

theorem Sound.ownerThere (sound : g.Sound) (mem : b ∈ g.adjacent a) : a ∈ g.nodes :=
  (sound.keyed a).mpr (adjacentKey mem)

theorem Sound.neighborThere (sound : g.Sound) (mem : b ∈ g.adjacent a) : b ∈ g.nodes :=
  sound.ownerThere (sound.joined a b mem)

theorem Sound.rowOk (sound : g.Sound) (here : n ∈ g.nodes) : g.row n = .ok (g.adjacent n) :=
  Graph.rowOk.mpr ⟨(sound.keyed n).mp here, rfl⟩

theorem Sound.neighborsOk (sound : g.Sound) {s : NodeSet} :
    g.neighbors n = .ok s ↔ n ∈ g.nodes ∧ s = g.adjacent n := by
  rw [Graph.neighborsOk, ← sound.keyed]
  exact ⟨fun given => ⟨given.1, given.2.2⟩, fun given => ⟨given.1, given.1, given.2⟩⟩

theorem Sound.nextFresh (sound : g.Sound) : g.next ∉ g.nodes := fun mem =>
  Int.lt_irrefl _ (sound.numbered _ mem)

theorem Sound.nextAlone (sound : g.Sound) : b ∉ g.adjacent g.next := fun mem =>
  sound.nextFresh (sound.ownerThere mem)

theorem memEdges : (a, b) ∈ g.edges ↔ b ∈ g.adjacent a ∧ a < b := by
  have listed : (a, b) ∈ g.edges ↔
      a ∈ NodeSet.ofList g.adjacency.keys ∧ b ∈ (g.adjacent a).filter (a < ·) := NodeSet.memPairs
  rw [listed, NodeSet.memOfList, NodeSet.memFilter, decide_eq_true_eq]
  exact and_iff_right_of_imp fun mem => adjacentKey mem.1

theorem edgesNodup : g.edges.Nodup := NodeSet.pairsNodup

theorem Sound.edgeThere (sound : g.Sound) (mem : (a, b) ∈ g.edges) : a ∈ g.nodes ∧ b ∈ g.nodes := by
  have near := (memEdges.mp mem).1
  exact ⟨sound.ownerThere near, sound.neighborThere near⟩

theorem emptySound : (empty : Graph R).Sound where
  keyed := by simp [empty]
  numbered := by simp [empty]
  joined a b mem := absurd mem (notAdjacent (by simp [empty]))
  loopless a := notAdjacent (by simp [empty])
  inputsThere := by simp [empty]
  outputsThere := by simp [empty]
  basesThere := by simp [empty]
  outputsFree := by simp [empty]

theorem addNodeNodes : n ∈ g.addNode.2.nodes ↔ n = g.next ∨ n ∈ g.nodes := NodeSet.memInsert

theorem addNodeAdjacent (sound : g.Sound) : g.addNode.2.adjacent a = g.adjacent a := by
  have unknown : g.next ∉ g.adjacency.keys := fun mem => sound.nextFresh ((sound.keyed _).mpr mem)
  unfold adjacent addNode
  rw [Table.getSet]
  split
  · rename_i fresh
    rw [fresh, Table.getNone.mpr unknown]
    rfl
  · rfl

theorem addNodeSound (sound : g.Sound) : g.addNode.2.Sound where
  keyed n := addNodeNodes.trans ((or_congr_right (sound.keyed n)).trans Table.memKeysSet.symm)
  numbered n mem := by
    rcases addNodeNodes.mp mem with rfl | old
    · exact Int.lt_succ _
    · exact Int.lt_trans (sound.numbered n old) (Int.lt_succ _)
  joined a b := by
    rw [addNodeAdjacent sound, addNodeAdjacent sound]
    exact sound.joined a b
  loopless a := by
    rw [addNodeAdjacent sound]
    exact sound.loopless a
  inputsThere n mem := addNodeNodes.mpr (.inr (sound.inputsThere n mem))
  outputsThere n mem := addNodeNodes.mpr (.inr (sound.outputsThere n mem))
  basesThere n mem := addNodeNodes.mpr (.inr (sound.basesThere n mem))
  outputsFree := sound.outputsFree

theorem addEdgeNodes (ok : g.addEdge a b = .ok next) : n ∈ next.nodes ↔ n ∈ g.nodes := by
  obtain ⟨_, _, _, _, _, rfl⟩ := addEdgeOk.mp ok
  rfl

theorem addEdgeRest (ok : g.addEdge a b = .ok next) :
    next.next = g.next ∧ next.inputs = g.inputs ∧ next.outputs = g.outputs ∧
      next.bases = g.bases ∧ next.cliffords = g.cliffords := by
  obtain ⟨_, _, _, _, _, rfl⟩ := addEdgeOk.mp ok
  exact ⟨rfl, rfl, rfl, rfl, rfl⟩

theorem addEdgeSound (sound : g.Sound) (ok : g.addEdge a b = .ok next) : next.Sound := by
  have adjacent := fun x y => addEdgeAdjacent (x := x) (y := y) ok
  obtain ⟨_, _, ⟨knownB, knownA⟩, _, different, rfl⟩ := addEdgeOk.mp ok
  refine ⟨fun n => ?_, sound.numbered, ?_, ?_, sound.inputsThere, sound.outputsThere, sound.basesThere,
    sound.outputsFree⟩
  · rw [setAdjacentKeys ((setAdjacentKeys knownA).mpr knownB), setAdjacentKeys knownA]
    exact sound.keyed n
  · intro x y mem
    rw [adjacent] at mem ⊢
    rcases mem with old | new | new
    · exact .inl (sound.joined x y old)
    · exact .inr (.inr new.symm)
    · exact .inr (.inl new.symm)
  · intro x mem
    rcases (adjacent x x).mp mem with old | ⟨atA, atB⟩ | ⟨atB, atA⟩
    · exact sound.loopless x old
    · exact different (atA.symm.trans atB)
    · exact different (atA.symm.trans atB)

theorem removeEdgeSound (sound : g.Sound) (ok : g.removeEdge a b = .ok next) : next.Sound := by
  have adjacent := fun x y => removeEdgeAdjacent (x := x) (y := y) ok
  obtain ⟨knownA, knownB, rfl⟩ := removeEdgeDone ok
  refine ⟨fun n => ?_, sound.numbered, ?_, ?_, sound.inputsThere, sound.outputsThere, sound.basesThere,
    sound.outputsFree⟩
  · rw [setAdjacentKeys ((setAdjacentKeys knownA).mpr knownB), setAdjacentKeys knownA]
    exact sound.keyed n
  · intro x y mem
    rw [adjacent] at mem ⊢
    exact ⟨sound.joined x y mem.1, fun h => mem.2.2 h.symm, fun h => mem.2.1 h.symm⟩
  · exact fun x mem => sound.loopless x ((adjacent x x).mp mem).1

theorem Sound.removedAdjacent (sound : g.Sound) (ok : g.removeNode n = .ok next) {x y : Int} :
    y ∈ next.adjacent x ↔ y ∈ g.adjacent x ∧ x ≠ n ∧ y ≠ n := by
  rw [removeNodeAdjacent ok]
  constructor
  · rintro ⟨⟨near, other⟩, apart⟩
    exact ⟨near, apart, fun same => other ⟨sound.joined x n (same ▸ near), same⟩⟩
  · rintro ⟨near, apart, other⟩
    exact ⟨⟨near, fun both => other both.2⟩, apart⟩

theorem removeNodeSound (sound : g.Sound) (ok : g.removeNode n = .ok next) : next.Sound := by
  have adjacent := fun x y => sound.removedAdjacent (x := x) (y := y) ok
  have keys := fun m => removeNodeKeys (m := m) ok
  obtain ⟨_, inner, _, rfl⟩ := removeNodeRest ok
  refine ⟨?_, ?_, ?_, ?_, ?_, ?_, ?_, ?_⟩
  · exact fun x => NodeSet.memErase.trans ((and_congr_left' (sound.keyed x)).trans (keys x).symm)
  · exact fun x mem => sound.numbered x (NodeSet.memErase.mp mem).1
  · intro x y mem
    rw [adjacent] at mem ⊢
    exact ⟨sound.joined x y mem.1, mem.2.2, mem.2.1⟩
  · exact fun x mem => sound.loopless x ((adjacent x x).mp mem).1
  · exact fun x mem => NodeSet.memErase.mpr ⟨sound.inputsThere x mem, fun eq => inner (eq ▸ mem)⟩
  · intro x mem
    obtain ⟨old, other⟩ := Table.memKeysErase.mp mem
    exact NodeSet.memErase.mpr ⟨sound.outputsThere x old, other⟩
  · intro x mem
    obtain ⟨old, other⟩ := Table.memKeysErase.mp mem
    exact NodeSet.memErase.mpr ⟨sound.basesThere x old, other⟩
  · intro x mem measured
    exact sound.outputsFree x (Table.memKeysErase.mp mem).1 (Table.memKeysErase.mp measured).1

theorem registerInputSound (sound : g.Sound) (ok : g.registerInput n = .ok (q, next)) :
    next.Sound := by
  obtain ⟨here, _, _, rfl⟩ := registerInputOk.mp ok
  refine ⟨sound.keyed, sound.numbered, sound.joined, sound.loopless, ?_, sound.outputsThere, sound.basesThere,
    sound.outputsFree⟩
  intro x mem
  rcases Table.memKeysSet.mp mem with rfl | old
  · exact here
  · exact sound.inputsThere x old

theorem registerOutputSound (sound : g.Sound) (ok : g.registerOutput n q = .ok next) :
    next.Sound := by
  obtain ⟨here, _, free, _, _, rfl⟩ := registerOutputOk.mp ok
  refine ⟨sound.keyed, sound.numbered, sound.joined, sound.loopless, sound.inputsThere, ?_, sound.basesThere, ?_⟩
  · intro x mem
    rcases Table.memKeysSet.mp mem with rfl | old
    · exact here
    · exact sound.outputsThere x old
  · intro x mem
    rcases Table.memKeysSet.mp mem with rfl | old
    · exact free
    · exact sound.outputsFree x old

theorem assignBasisSound {basis : Basis R} (sound : g.Sound)
    (ok : g.assignBasis n basis = .ok next) : next.Sound := by
  obtain ⟨here, inner, rfl⟩ := assignBasisOk.mp ok
  refine ⟨sound.keyed, sound.numbered, sound.joined, sound.loopless, sound.inputsThere, sound.outputsThere, ?_, ?_⟩
  · intro x mem
    rcases Table.memKeysSet.mp mem with rfl | old
    · exact here
    · exact sound.basesThere x old
  · intro x mem measured
    rcases Table.memKeysSet.mp measured with rfl | old
    · exact inner mem
    · exact sound.outputsFree x mem old

end Graph

namespace Edit
open OneWay.Graph

structure ChainSteps (P : Graph R → Prop) : Prop where
  addNode : Keeps P (addNode : Edit R Int)
  addEdge : ∀ a b, Keeps P (addEdge a b : Edit R Unit)
  assignBasis : ∀ n basis, Keeps P (assignBasis n basis)
  takeClifford : ∀ n, Keeps P (takeClifford n : Edit R (Option (LocalClifford R)))

/- What every single step keeps. All operations are made of these steps, so that it is kept wherever one
breaks off. -/
structure Steps (P : Graph R → Prop) : Prop extends ChainSteps P where
  removeNode : ∀ n, Keeps P (step fun g => g.removeNode n)
  removeEdge : ∀ a b, Keeps P (step fun g => g.removeEdge a b)
  registerInput : ∀ n, Keeps P (registerInput n : Edit R Int)
  registerOutput : ∀ n q, Keeps P (registerOutput n q : Edit R Unit)
  storeClifford : ∀ n c, Keeps P (modify fun g => g.storeClifford n c : Edit R PUnit)
  dropInputs : Keeps P (modify fun g => { g with inputs := ∅ } : Edit R PUnit)
  dropOutputs : Keeps P (modify fun g => { g with outputs := ∅ } : Edit R PUnit)

variable {P : Graph R → Prop}

theorem ChainSteps.expandInput (steps : ChainSteps P) (input : Int) :
    Keeps P (expandInput input : Edit R (Int × Option Chain)) := by
  unfold Graph.expandInput
  refine keepsBind (steps.takeClifford input) fun taken => ?_
  split
  · exact keepsPure
  · refine keepsBind steps.addNode fun n0 => keepsBind steps.addNode fun n1 =>
      keepsBind steps.addNode fun n2 => ?_
    refine keepsBind (steps.addEdge n0 n1) fun _ => keepsBind (steps.addEdge n1 n2) fun _ =>
      keepsBind (steps.addEdge n2 input) fun _ => ?_
    exact keepsBind (steps.assignBasis n0 _) fun _ => keepsBind (steps.assignBasis n1 _) fun _ =>
      keepsBind (steps.assignBasis n2 _) fun _ => keepsPure

theorem ChainSteps.expandOutput (steps : ChainSteps P) (output : Int) :
    Keeps P (expandOutput output : Edit R (Int × Option Chain)) := by
  unfold Graph.expandOutput
  refine keepsBind (steps.takeClifford output) fun taken => ?_
  split
  · exact keepsPure
  · refine keepsBind steps.addNode fun n0 => keepsBind steps.addNode fun n1 =>
      keepsBind steps.addNode fun n2 => ?_
    refine keepsBind (steps.addEdge output n0) fun _ => keepsBind (steps.addEdge n0 n1) fun _ =>
      keepsBind (steps.addEdge n1 n2) fun _ => ?_
    exact keepsBind (steps.assignBasis output _) fun _ => keepsBind (steps.assignBasis n0 _) fun _ =>
      keepsBind (steps.assignBasis n1 _) fun _ => keepsPure

theorem keepsApplyClifford (take : ∀ n, Keeps P (takeClifford n : Edit R (Option (LocalClifford R))))
    (store : ∀ n c, Keeps P (modify fun g => g.storeClifford n c : Edit R PUnit))
    (assign : ∀ n basis, Keeps P (assignBasis n basis)) (n : Int) (c : LocalClifford R) :
    Keeps P (applyClifford n c) := by
  unfold Graph.applyClifford
  refine keepsBind keepsGet fun g => keepsBind keepsLift fun _ => ?_
  split
  · refine keepsBind (take n) fun old => ?_
    split
    · exact keepsBind keepsLift fun joined => store n joined
    · exact keepsBind keepsPure fun joined => store n joined
  · refine keepsBind keepsLift fun _ => keepsBind keepsLift fun back => ?_
    split
    · exact keepsLift
    · exact keepsBind keepsLift fun turned => assign n turned

theorem Steps.applyClifford (steps : Steps P) (n : Int) (c : LocalClifford R) : Keeps P (applyClifford n c) :=
  keepsApplyClifford steps.takeClifford steps.storeClifford steps.assignBasis n c

theorem Steps.expandInputs (steps : Steps P) : Keeps P (expandInputs : Edit R (List (Int × Chain))) := by
  unfold Graph.expandInputs
  refine keepsBind keepsGet fun g => keepsBind (keepsMapM steps.expandInput _) fun after => ?_
  refine keepsBind steps.dropInputs fun _ => keepsBind (keepsForM ?_ after) fun _ => keepsPure
  rintro ⟨n, _⟩
  exact keepsBind (steps.registerInput n) fun _ => keepsPure

theorem Steps.expandOutputs (steps : Steps P) :
    Keeps P (expandOutputs : Edit R (List (Int × Chain))) := by
  unfold Graph.expandOutputs
  refine keepsBind keepsGet fun g => keepsBind (keepsMapM ?_ _) fun after => ?_
  · rintro ⟨n, _⟩
    exact steps.expandOutput n
  · refine keepsBind steps.dropOutputs fun _ => keepsBind (keepsForM ?_ _) fun _ => keepsPure
    rintro ⟨⟨n, _⟩, _, q⟩
    exact steps.registerOutput n q

theorem Steps.edit (steps : Steps P) (op : Operation R) : Keeps P op.edit := by
  cases op with
  | addNode => exact keepsDiscard steps.addNode
  | addEdge a b => exact steps.addEdge a b
  | removeNode n => exact steps.removeNode n
  | removeEdge a b => exact steps.removeEdge a b
  | registerInput n => exact keepsDiscard (steps.registerInput n)
  | registerOutput n q => exact steps.registerOutput n q
  | assignBasis n basis => exact steps.assignBasis n basis
  | applyClifford n c => exact steps.applyClifford n c
  | expandCliffords =>
    exact keepsDiscard
      (keepsBind steps.expandInputs fun _ => keepsBind steps.expandOutputs fun _ => keepsPure)

theorem soundSteps : Steps (Sound : Graph R → Prop) where
  addNode := by
    refine keepsStepWith fun g a next sound ok => ?_
    cases ok
    exact addNodeSound sound
  addEdge _ _ := keepsStep fun _ _ => addEdgeSound
  assignBasis _ _ := keepsStep fun _ _ => assignBasisSound
  takeClifford n := by
    refine keepsStepWith fun g a next sound ok => ?_
    cases ok
    exact { sound with }
  removeNode _ := keepsStep fun _ _ => removeNodeSound
  removeEdge _ _ := keepsStep fun _ _ => removeEdgeSound
  registerInput _ := keepsStepWith fun _ _ _ => registerInputSound
  registerOutput _ _ := keepsStep fun _ _ => registerOutputSound
  storeClifford _ _ :=
    keepsModify fun _ sound => { sound with }
  dropInputs := keepsModify fun _ sound => { sound with inputsThere := by simp }
  dropOutputs := keepsModify fun _ sound => { sound with outputsThere := by simp, outputsFree := by simp }

end Edit

theorem Graph.performSound {g : Graph R} (sound : g.Sound) (op : Operation R) :
    (g.perform op).Sound :=
  Edit.soundSteps.edit op g sound

theorem Graph.reachableSound {g : Graph R} (reach : g.Reachable) : g.Sound :=
  Graph.reachableInduction Graph.emptySound (fun _ op sound => Graph.performSound sound op) reach

end OneWay
