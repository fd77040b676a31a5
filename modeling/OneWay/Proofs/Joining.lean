import OneWay.Proofs.Composition

/-! When two graphs can be joined one after the other. Both have to be canonical, the qubits that leave
the first have to be those that enter the second, and no two of these qubits may have an edge in both
graphs. A joined graph is reached by operations like any other. -/
namespace OneWay

theorem Result.foldlMKeeps {ε α β : Type} {P : β → Prop} {f : β → α → Except ε β} {xs : List α} {b c : β}
    (step : ∀ b x c, P b → f b x = .ok c → P c) (now : P b) (ok : xs.foldlM f b = .ok c) : P c := by
  induction xs generalizing b with
  | nil =>
    rw [List.foldlM_nil, Result.pureOk] at ok
    exact ok ▸ now
  | cons x xs ih =>
    rw [List.foldlM_cons, Result.bindOk] at ok
    obtain ⟨mid, first, rest⟩ := ok
    exact ih (step b x mid now first) rest

namespace Graph
variable {R : Type} [Scalar R] {g next source target first second : Graph R} {names : Table Int}
  {c : Composition R} {a b n q x y : Int}

namespace Reachable

theorem run (reach : g.Reachable) (op : Operation R) {out : Except Fault Unit}
    (ran : op.edit.apply g = (out, next)) : next.Reachable := by
  obtain ⟨ops, rfl⟩ := reach
  refine ⟨ops ++ [op], ?_⟩
  rw [after, List.foldl_append, List.foldl_cons, List.foldl_nil]
  exact congrArg Prod.snd ran

theorem addNode (reach : g.Reachable) : g.addNode.2.Reachable := reach.run .addNode rfl

theorem addEdge (reach : g.Reachable) (ok : g.addEdge a b = .ok next) : next.Reachable :=
  reach.run (.addEdge a b) ((Edit.stepOk (u := ())).mpr ok)

theorem registerInput (reach : g.Reachable) (ok : g.registerInput n = .ok (q, next)) : next.Reachable :=
  reach.run (.registerInput n) (Edit.bindOk.mpr ⟨q, next, Edit.stepWithOk.mpr ok, rfl⟩)

theorem registerOutput (reach : g.Reachable) (ok : g.registerOutput n q = .ok next) : next.Reachable :=
  reach.run (.registerOutput n q) ((Edit.stepOk (u := ())).mpr ok)

theorem copyNode (reach : g.Reachable) : (copyNode source (g, names) n).1.Reachable := by
  have sound := reachableSound reach
  cases found : source.bases.get? n with
  | none => simpa only [Graph.copyNode, found] using reach.addNode
  | some basis =>
    have outside : g.next ∉ g.outputs.keys := fun output => sound.nextFresh (sound.outputsThere _ output)
    simp only [Graph.copyNode, found]
    exact reach.addNode.run (.assignBasis g.next basis) ((Edit.stepOk (u := ())).mpr
      (assignBasisOk.mpr ⟨addNodeNodes.mpr (.inl rfl), outside, rfl⟩))

theorem copyNodes (reach : target.Reachable) (source : Graph R) (nodes : NodeSet) :
    (copyNodes source target nodes).1.Reachable := by
  have run : ∀ (ns : List Int) (state : Graph R × Table Int), state.1.Reachable →
      (ns.foldl (Graph.copyNode source) state).1.Reachable := by
    intro ns
    induction ns with
    | nil => exact fun _ now => now
    | cons n ns ih => exact fun state now => ih _ now.copyNode
  exact run nodes.toList (target, ∅) reach

theorem copyInputs {qubits : Table Int} (reach : target.Reachable)
    (ok : copyInputs source names target = .ok (next, qubits)) : next.Reachable := by
  refine Result.foldlMKeeps (P := fun state : Graph R × Table Int => state.1.Reachable) ?_ reach ok
  intro state e out now step
  simp only [Result.bindOk, Result.pureOk] at step
  obtain ⟨_, _, _, registered, rfl⟩ := step
  exact now.registerInput registered

theorem copyOutputs {rename : Int → Except Fault Int} (reach : target.Reachable)
    (ok : copyOutputs source names rename target = .ok next) : next.Reachable := by
  refine Result.foldlMKeeps ?_ reach ok
  intro g e out now step
  simp only [Result.bindOk] at step
  obtain ⟨_, _, _, _, registered⟩ := step
  exact now.registerOutput registered

theorem copyEdges (reach : target.Reachable) (ok : copyEdges source names target = .ok next) :
    next.Reachable := by
  refine Result.foldlMKeeps ?_ reach ok
  intro g e out now step
  simp only [Result.bindOk] at step
  obtain ⟨_, _, _, _, joined⟩ := step
  exact now.addEdge joined

end Reachable

theorem sequentialReachable (ok : first.sequential second = .ok c) : c.graph.Reachable := by
  have start : (empty : Graph R).Reachable := ⟨[], rfl⟩
  rw [sequential] at ok
  simp only [Result.bindOk, Result.pureOk, Result.refuseIfOk] at ok
  obtain ⟨_, _, _, _, _, ⟨g1, _⟩, inputsOk, g2, outputsOk, g3, edgesOk1, g4, edgesOk2, rfl⟩ := ok
  exact ((((start.copyNodes _ _).copyNodes _ _).copyInputs inputsOk).copyOutputs outputsOk).copyEdges edgesOk1
    |>.copyEdges edgesOk2

structure Renames (source target : Graph R) (names : Table Int) : Prop where
  there : ∀ n ∈ source.nodes, names.get? n = some (named names n) ∧
    named names n ∈ target.nodes
  apart : ∀ a ∈ source.nodes, ∀ b ∈ source.nodes,
    named names a = named names b → a = b

theorem Renames.move (renames : Renames source target names)
    (keys : ∀ n, n ∈ next.nodes ↔ n ∈ target.nodes) : Renames source next names where
  there n here := ⟨(renames.there n here).1, (keys _).mpr (renames.there n here).2⟩
  apart := renames.apart

theorem copyInputsTotal (sound : source.Sound) (renames : Renames source target names)
    (fresh : ∀ n ∈ source.inputs.keys, named names n ∉ target.inputs.keys) :
    ∃ out, copyInputs source names target = .ok out := by
  have run : ∀ (es : List (Int × Int)) (state : Graph R × Table Int), (es.map Prod.fst).Nodup →
      (∀ e ∈ es, e.1 ∈ source.nodes) → (∀ e ∈ es, named names e.1 ∉ state.1.inputs.keys) →
      state.1.nodes = target.nodes →
      ∃ out, es.foldlM (fun (state : Graph R × Table Int) e => do
        let placed ← state.1.registerInput (← lookUp names e.1)
        return (placed.2, state.2.set e.2 placed.1)) state = .ok out := by
    intro es
    induction es with
    | nil => exact fun state _ _ _ _ => ⟨state, rfl⟩
    | cons e rest ih =>
      intro state once nodes fresh same
      obtain ⟨other, once⟩ := List.nodup_cons.mp once
      obtain ⟨node, nodes⟩ := List.forall_mem_cons.mp nodes
      obtain ⟨new, fresh⟩ := List.forall_mem_cons.mp fresh
      obtain ⟨found, there⟩ := renames.there e.1 node
      have still : ∀ d ∈ rest, named names d.1 ∉
          (state.1.inputs.set (named names e.1) (state.1.inputs.size : Int)).keys := by
        intro d mem
        rw [Table.memKeysSet, not_or]
        refine ⟨fun eq => other ?_, fresh d mem⟩
        exact renames.apart d.1 (nodes d mem) e.1 node eq ▸ List.mem_map_of_mem mem
      obtain ⟨out, rest⟩ := ih
        ({ state.1 with inputs := state.1.inputs.set (named names e.1) state.1.inputs.size },
          state.2.set e.2 state.1.inputs.size) once nodes still same
      refine ⟨out, ?_⟩
      simp only [List.foldlM_cons, Result.bindOk, Result.pureOk, lookUpOk]
      exact ⟨_, ⟨_, found, (_, _), registerInputOk.mpr ⟨same ▸ there, new, rfl, rfl⟩, rfl⟩, rest⟩
  have order : source.inputs.byValue.Perm source.inputs.entries := List.mergeSort_perm _ _
  have listed (e : Int × Int) (mem : e ∈ source.inputs.byValue) : e.1 ∈ source.inputs.keys :=
    List.mem_map_of_mem (order.mem_iff.mp mem)
  exact run _ (target, ∅) ((order.map Prod.fst).nodup_iff.mpr source.inputs.distinct)
    (fun e mem => sound.inputsThere _ (listed e mem)) (fun e mem => fresh _ (listed e mem)) rfl

theorem copyOutputsTotal {rename : Int → Except Fault Int} (label : Int → Int) (sound : source.Sound)
    (renames : Renames source target names)
    (renamed : ∀ q ∈ source.outputs.values, rename q = .ok (label q))
    (once : (source.outputs.values.map label).Nodup)
    (below : ∀ q ∈ source.outputs.values, label q < target.inputs.size)
    (unused : ∀ q ∈ source.outputs.values, label q ∉ target.outputs.values)
    (fresh : ∀ n ∈ source.outputs.keys, named names n ∉ target.outputs.keys ∧
      named names n ∉ target.bases.keys) :
    ∃ next, copyOutputs source names rename target = .ok next := by
  have key {e : Int × Int} (mem : e ∈ source.outputs.entries) : e.1 ∈ source.outputs.keys :=
    List.mem_map_of_mem mem
  have value {e : Int × Int} (mem : e ∈ source.outputs.entries) : e.2 ∈ source.outputs.values :=
    List.mem_map_of_mem mem
  have each : ∀ e ∈ source.outputs.entries, ∀ g : Graph R,
      (do g.registerOutput (← lookUp names e.1) (← rename e.2)) =
        g.registerOutput (named names e.1) (label e.2) := by
    intro e mem g
    have found := lookUpOk.mpr (renames.there e.1 (sound.outputsThere _ (key mem))).1
    rw [found, renamed e.2 (value mem)]
    rfl
  have onceNamed : (source.outputs.keys.map (named names)).Nodup :=
    source.outputs.distinct.map_on fun a outA b outB =>
      renames.apart a (sound.outputsThere a outA) b (sound.outputsThere b outB)
  rw [Table.keys, List.map_map] at onceNamed
  rw [Table.values, List.map_map] at once
  obtain ⟨outputs, ran, _⟩ := registerAll (g := target)
    (source.outputs.entries.map fun e => (named names e.1, label e.2))
    (by rwa [List.map_map]) (by rwa [List.map_map])
    (List.forall_mem_map.mpr fun e mem => ⟨(renames.there e.1 (sound.outputsThere _ (key mem))).2,
      (fresh _ (key mem)).2, below _ (value mem)⟩)
    (List.forall_mem_map.mpr fun e mem => ⟨(fresh _ (key mem)).1, unused _ (value mem)⟩)
  rw [List.foldlM_map] at ran
  exact ⟨_, (Result.foldlMCongr each).trans ran⟩

theorem copyEdgesTotal (sound : source.Sound) (renames : Renames source target names)
    (reach : target.Reachable)
    (clear : ∀ a b, b ∈ source.adjacent a → named names b ∉ target.adjacent (named names a)) :
    ∃ next, copyEdges source names target = .ok next := by
  have run : ∀ (es : List (Int × Int)) (g : Graph R), es.Nodup → (∀ e ∈ es, e ∈ source.edges) →
      (∀ e ∈ es, named names e.2 ∉ g.adjacent (named names e.1)) → g.Sound →
      (∀ n, n ∈ g.nodes ↔ n ∈ target.nodes) →
      ∃ next, es.foldlM (fun g e => do g.addEdge (← lookUp names e.1) (← lookUp names e.2)) g =
        .ok next := by
    intro es
    induction es with
    | nil => exact fun g _ _ _ _ _ => ⟨g, rfl⟩
    | cons e rest ih =>
      intro g once listed clear soundG keys
      obtain ⟨other, once⟩ := List.nodup_cons.mp once
      obtain ⟨mem, listed⟩ := List.forall_mem_cons.mp listed
      obtain ⟨free, clear⟩ := List.forall_mem_cons.mp clear
      obtain ⟨node1, node2⟩ := sound.edgeThere mem
      obtain ⟨found1, there1⟩ := renames.there e.1 node1
      obtain ⟨found2, there2⟩ := renames.there e.2 node2
      have up := (memEdges.mp mem).2
      have different : named names e.1 ≠ named names e.2 := fun eq =>
        Int.ne_of_lt up (renames.apart _ node1 _ node2 eq)
      obtain ⟨mid, step⟩ := addEdgeTotal soundG ((keys _).mpr there1) ((keys _).mpr there2) free different
      have still : ∀ d ∈ rest, named names d.2 ∉ mid.adjacent (named names d.1) := by
        intro d later
        have up' := (memEdges.mp (listed d later)).2
        obtain ⟨node1', node2'⟩ := sound.edgeThere (listed d later)
        rw [addEdgeAdjacent step]
        rintro (old | ⟨same1, same2⟩ | ⟨same1, same2⟩)
        · exact clear d later old
        · have eq1 := renames.apart _ node1' _ node1 same1
          have eq2 := renames.apart _ node2' _ node2 same2
          exact other (Prod.ext eq1 eq2 ▸ later)
        · have eq1 := renames.apart _ node1' _ node2 same1
          have eq2 := renames.apart _ node2' _ node1 same2
          omega
      obtain ⟨next, rest⟩ := ih mid once listed still (addEdgeSound soundG step)
        fun n => (addEdgeNodes step).trans (keys n)
      refine ⟨next, ?_⟩
      simp only [List.foldlM_cons, Result.bindOk, lookUpOk]
      exact ⟨mid, ⟨_, found1, _, found2, step⟩, rest⟩
  exact run _ target edgesNodup (fun _ mem => mem) (fun e mem => clear _ _ (memEdges.mp mem).1)
    (reachableSound reach) fun _ => Iff.rfl

theorem addEdgeRefused {x : Fault} (sound : g.Sound) (hereA : a ∈ g.nodes) (hereB : b ∈ g.nodes)
    (other : a ≠ b) (refused : g.addEdge a b = .error x) : x = .edgePresent a b := by
  have nodeA : g.requireNode a = .ok () := requireNodeOk.mpr hereA
  have nodeB : g.requireNode b = .ok () := requireNodeOk.mpr hereB
  rw [addEdge, nodeA, nodeB, Result.okBind, Result.okBind, sound.rowOk hereB, sound.rowOk hereA, Result.okBind,
    Result.okBind, if_neg other] at refused
  split at refused
  · exact (Except.error.inj refused).symm
  · cases refused

theorem copyEdgesRefused {x : Fault} (sound : source.Sound) (soundTarget : target.Sound)
    (renames : Renames source target names)
    (refused : copyEdges source names target = .error x) : ∃ a b, x = .edgePresent a b := by
  have run : ∀ (es : List (Int × Int)) (g : Graph R), (∀ e ∈ es, e ∈ source.edges) → g.Sound →
      (∀ n, n ∈ g.nodes ↔ n ∈ target.nodes) →
      es.foldlM (fun g e => do g.addEdge (← lookUp names e.1) (← lookUp names e.2)) g = .error x →
      ∃ a b, x = .edgePresent a b := by
    intro es
    induction es with
    | nil =>
      intro g _ _ _ refused
      cases refused
    | cons e rest ih =>
      intro g listed soundG keys refused
      obtain ⟨mem, listed⟩ := List.forall_mem_cons.mp listed
      obtain ⟨node1, node2⟩ := sound.edgeThere mem
      obtain ⟨found1, there1⟩ := renames.there e.1 node1
      obtain ⟨found2, there2⟩ := renames.there e.2 node2
      have different : named names e.1 ≠ named names e.2 := fun eq =>
        Int.ne_of_lt (memEdges.mp mem).2 (renames.apart _ node1 _ node2 eq)
      rw [List.foldlM_cons, lookUpOk.mpr found1, lookUpOk.mpr found2, Result.okBind, Result.okBind] at refused
      rcases Result.bindError.mp refused with here | ⟨mid, step, later⟩
      · exact ⟨_, _, addEdgeRefused soundG ((keys _).mpr there1) ((keys _).mpr there2) different here⟩
      · exact ih mid listed (addEdgeSound soundG step) (fun n => (addEdgeNodes step).trans (keys n)) later
  exact run _ target (fun _ mem => mem) soundTarget (fun _ => Iff.rfl) refused

theorem identifyTotal (names1 : Table Int) {names2 : Table Int} (roles : first.Roles)
    (qubits : ∀ q, q ∈ first.outputs.values ↔ q ∈ second.inputs.values)
    (known : ∀ i ∈ second.inputs.keys, i ∈ names2.keys) :
    ∃ names, identify first second names1 names2 = .ok names := by
  refine Result.foldlMTotal (fun e mem names => ?_) names1
  obtain ⟨o, output⟩ := Table.memValues.mp ((qubits e.2).mpr (List.mem_map_of_mem mem))
  obtain ⟨v, found⟩ := Table.memKeys.mp (known e.1 (List.mem_map_of_mem mem))
  simp only [Result.bindOk, Result.pureOk, lookUpOk]
  exact ⟨_, o, (Table.getSwapped roles.outputsOnce).mpr output, v, found, rfl⟩

structure Placed (first second g : Graph R) (names1 names2 : Table Int) : Prop where
  renames1 : Renames first g names1
  renames2 : Renames second g names2
  meet : ∀ a ∈ first.nodes, ∀ b ∈ second.nodes, named names1 a = named names2 b →
    ∃ q, first.outputs.get? a = some q ∧ second.inputs.get? b = some q

theorem placedCopies {part1 part2 : Graph R × Table Int} (roles : first.Roles)
    (copies1 : Copies first empty part1.1 part1.2) (keys1 : ∀ n, n ∈ part1.2.keys ↔ n ∈ first.innerNodes)
    (copies2 : Copies second part1.1 part2.1 part2.2) (keys2 : ∀ n, n ∈ part2.2.keys ↔ n ∈ second.nodes)
    (meet : ∀ o q, first.outputs.get? o = some q → ∃ i v, second.inputs.get? i = some q ∧
      part2.2.get? i = some v ∧ names.get? o = some v)
    (kept : ∀ n ∉ first.outputs.keys, names.get? n = part1.2.get? n) :
    Placed first second part2.1 names part2.2 := by
  have own (n : Int) (node : n ∈ second.nodes) : part2.2.get? n = some (named part2.2 n) :=
    getNamed ((keys2 n).mpr node)
  have cases (n : Int) (node : n ∈ first.nodes) :
      (∃ q i, first.outputs.get? n = some q ∧ second.inputs.get? i = some q ∧
        part2.2.get? i = some (named names n) ∧ names.get? n = some (named names n)) ∨
      names.get? n = some (named names n) ∧ part1.2.get? n = some (named names n) := by
    by_cases output : n ∈ first.outputs.keys
    · obtain ⟨q, found⟩ := Table.memKeys.mp output
      obtain ⟨i, v, input, named2, named1⟩ := meet n q found
      rw [namedGet named1]
      exact .inl ⟨q, i, found, input, named2, named1⟩
    · have there := getNamed ((keys1 n).mpr (memInnerNodes.mpr ⟨node, output⟩))
      have plain := kept n output
      rw [there] at plain
      rw [namedGet plain]
      exact .inr ⟨plain, there⟩
  have fresh (a i v : Int) (inner : part1.2.get? a = some v) : part2.2.get? i ≠ some v := fun found =>
    copies2.fresh i v found ((copies1.keys v).mpr (.inr ⟨a, inner⟩))
  refine ⟨⟨fun n node => ?_, fun a nodeA b nodeB eq => ?_⟩, ⟨fun n node => ?_, fun a nodeA b nodeB eq => ?_⟩,
    fun a nodeA b nodeB eq => ?_⟩
  · rcases cases n node with ⟨_, i, _, _, named2, named1⟩ | ⟨named1, inner⟩
    · exact ⟨named1, (copies2.keys _).mpr (.inr ⟨i, named2⟩)⟩
    · exact ⟨named1, (copies2.keys _).mpr (.inl ((copies1.keys _).mpr (.inr ⟨n, inner⟩)))⟩
  · rcases cases a nodeA with ⟨q, i, outputA, inputA, namedA, _⟩ | ⟨_, innerA⟩
    · rcases cases b nodeB with ⟨r, j, outputB, inputB, namedB, _⟩ | ⟨_, innerB⟩
      · cases copies2.apart i j _ namedA (eq ▸ namedB)
        cases inputA.symm.trans inputB
        exact Table.sameKey roles.outputsOnce outputA outputB
      · exact absurd (eq ▸ namedA) (fresh b i _ innerB)
    · rcases cases b nodeB with ⟨r, j, _, _, namedB, _⟩ | ⟨_, innerB⟩
      · exact absurd (eq ▸ namedB) (fresh a j _ innerA)
      · exact copies1.apart a b _ innerA (eq ▸ innerB)
  · exact ⟨own n node, (copies2.keys _).mpr (.inr ⟨n, own n node⟩)⟩
  · exact copies2.apart a b _ (own a nodeA) (eq ▸ own b nodeB)
  · rcases cases a nodeA with ⟨q, i, output, input, named2, _⟩ | ⟨_, inner⟩
    · cases copies2.apart i b _ named2 (eq ▸ own b nodeB)
      exact ⟨q, output, input⟩
    · exact absurd (eq ▸ own b nodeB) (fresh a b _ inner)

theorem nearIff (sound : g.Sound) : y ∈ g.adjacent x ↔ (min x y, max x y) ∈ g.edges := by
  rw [memEdges]
  rcases lt_trichotomy x y with up | rfl | down
  · rw [min_eq_left up.le, max_eq_right up.le]
    exact ⟨fun near => ⟨near, up⟩, And.left⟩
  · simp [sound.loopless]
  · rw [min_eq_right down.le, max_eq_left down.le]
    exact ⟨fun near => ⟨sound.joined _ _ near, down⟩, fun near => sound.joined _ _ near.1⟩

theorem memRelinked (sound : source.Sound) : (min x y, max x y) ∈ source.edges.map (relink names) ↔
    ∃ a b, b ∈ source.adjacent a ∧ named names a = x ∧ named names b = y := by
  rw [List.mem_map]
  constructor
  · rintro ⟨⟨a, b⟩, mem, eq⟩
    obtain ⟨low, high⟩ := Prod.mk.inj eq
    have near := (memEdges.mp mem).1
    have ends : (named names a = x ∧ named names b = y) ∨ (named names a = y ∧ named names b = x) := by
      dsimp only at low high
      omega
    rcases ends with ⟨eqA, eqB⟩ | ⟨eqA, eqB⟩
    · exact ⟨a, b, near, eqA, eqB⟩
    · exact ⟨b, a, sound.joined a b near, eqB, eqA⟩
  · rintro ⟨a, b, near, rfl, rfl⟩
    refine ⟨(min a b, max a b), (nearIff sound).mp near, ?_⟩
    rcases le_total a b with up | down
    · rw [min_eq_left up, max_eq_right up, relink]
    · rw [min_eq_right down, max_eq_left down, relink, min_comm, max_comm]

def Clash (first second : Graph R) : Prop :=
  ∃ a b i j q r, b ∈ first.adjacent a ∧ first.outputs.get? a = some q ∧ first.outputs.get? b = some r ∧
    j ∈ second.adjacent i ∧ second.inputs.get? i = some q ∧ second.inputs.get? j = some r

/- Nothing is refused before the edges of the second graph are copied. What is in the way of one of them is
an edge of the first graph. -/
theorem sequentialRun (reach1 : first.Reachable) (reach2 : second.Reachable)
    (canonical1 : first.isCanonical = true) (canonical2 : second.isCanonical = true)
    (qubits : ∀ q, q ∈ first.outputs.values ↔ q ∈ second.inputs.values) :
    ∃ g names1 names2, first.sequential second = (copyEdges second names2 g).map (⟨·, names1, names2⟩) ∧
      g.Reachable ∧ Renames second g names2 ∧ ∀ i j, j ∈ second.adjacent i →
        named names2 j ∈ g.adjacent (named names2 i) → Clash first second := by
  have sound1 := reachableSound reach1
  have sound2 := reachableSound reach2
  have roles1 := reachableRoles reach1
  have roles2 := reachableRoles reach2
  have start : (empty : Graph R).Reachable := ⟨[], rfl⟩
  have reach := (start.copyNodes first first.innerNodes).copyNodes second second.nodes
  have accepted : requireCanonical first second = .ok () := requireCanonicalOk.mpr ⟨canonical1, canonical2⟩
  have same : NodeSet.ofList first.outputs.values = NodeSet.ofList second.inputs.values :=
    NodeSet.eqOfMem fun q => by rw [NodeSet.memOfList, NodeSet.memOfList, qubits]
  simp only [sequential, accepted, Result.okBind, if_neg (not_not.mpr same)]
  obtain ⟨copies1, keys1⟩ := copiesOfNodes first emptySound first.innerNodes
  generalize first.copyNodes empty first.innerNodes = part1 at reach copies1 keys1 ⊢
  obtain ⟨copies2, keys2⟩ := copiesOfNodes second copies1.sound second.nodes
  generalize second.copyNodes part1.1 second.nodes = part2 at reach copies2 keys2 ⊢
  obtain ⟨names, identified⟩ := identifyTotal part1.2 roles1 qubits fun i input =>
    (keys2 i).mpr (sound2.inputsThere i input)
  obtain ⟨meet, kept⟩ := identifyOk roles1 roles2 qubits identified
  have placed := placedCopies roles1 copies1 keys1 copies2 keys2 meet kept
  have noInputs : part2.1.inputs = ∅ := by
    rw [copies2.inputs, copies1.inputs]
    rfl
  obtain ⟨⟨g1, _⟩, inputsOk⟩ := copyInputsTotal sound1 placed.renames1 (by simp [noInputs])
  obtain ⟨inputs, same1, entries⟩ := copyInputsOk roles1 noInputs inputsOk
  have noOutputs : g1.outputs = ∅ := by
    rw [same1]
    exact copies2.outputs.trans copies1.outputs
  obtain ⟨g2, outputsOk⟩ : ∃ g2, copyOutputs second part2.2 .ok g1 = .ok g2 := by
    refine copyOutputsTotal id sound2 (placed.renames2.move fun n => by rw [same1])
      (fun _ _ => rfl) ?_ ?_ ?_ ?_
    · rw [List.map_id]
      exact roles2.outputsOnce
    · intro q value
      have size : inputs.size = second.inputs.size := by
        rw [← roles1.crossingSize roles2 qubits, ← (canonicalIff.mp canonical1).1, Table.size, entries,
          List.length_map, Table.size]
      rw [same1, size]
      exact roles2.outputsBelow q value
    · intro q _
      rw [noOutputs]
      exact List.not_mem_nil
    · intro n output
      have node := sound2.outputsThere n output
      refine ⟨by simp [noOutputs], ?_⟩
      rw [same1, ← Table.getNone, copies2.based n _ (getNamed ((keys2 n).mpr node)), Table.getNone]
      exact sound2.outputsFree n output
  obtain ⟨outputs, same2, _⟩ := copyOutputsOk id (fun _ _ => rfl) noOutputs outputsOk
  have keys (n : Int) : n ∈ g2.nodes ↔ n ∈ part2.1.nodes := by
    rw [same2, same1]
  have bare (a : Int) : g2.adjacent a = (empty : Graph R).adjacent a := by
    rw [same2, same1, ← copies1.adjacent, ← copies2.adjacent]
    rfl
  have reach2 := (reach.copyInputs inputsOk).copyOutputs outputsOk
  obtain ⟨g3, edgesOk1⟩ := copyEdgesTotal sound1 (placed.renames1.move keys) reach2 fun a b _ => by
    rw [bare]
    exact notAdjacent (by simp [empty])
  obtain ⟨perm, keys3, _⟩ := copyEdgesOk edgesOk1
  rw [edgeless bare, List.append_nil] at perm
  have reach3 := reach2.copyEdges edgesOk1
  refine ⟨g3, names, part2.2, ?_, reach3, placed.renames2.move fun n => (keys3 n).trans (keys n),
    fun i j near old => ?_⟩
  · rw [identified, Result.okBind, inputsOk, Result.okBind, outputsOk, Result.okBind, edgesOk1, Result.okBind]
    rfl
  · rw [nearIff (reachableSound reach3), perm.mem_iff, memRelinked sound1] at old
    obtain ⟨a, b, near1, eqA, eqB⟩ := old
    obtain ⟨q, outputA, inputI⟩ := placed.meet a (sound1.ownerThere near1) i (sound2.ownerThere near) eqA
    obtain ⟨r, outputB, inputJ⟩ := placed.meet b (sound1.neighborThere near1) j (sound2.neighborThere near) eqB
    exact ⟨a, b, i, j, q, r, near1, outputA, outputB, near, inputI, inputJ⟩

theorem sequentialTotal (reach1 : first.Reachable) (reach2 : second.Reachable)
    (canonical1 : first.isCanonical = true) (canonical2 : second.isCanonical = true)
    (qubits : ∀ q, q ∈ first.outputs.values ↔ q ∈ second.inputs.values) (clear : ¬ Clash first second) :
    ∃ c, first.sequential second = .ok c := by
  obtain ⟨g, names1, names2, run, reach, renames, clash⟩ :=
    sequentialRun reach1 reach2 canonical1 canonical2 qubits
  obtain ⟨h, copied⟩ := copyEdgesTotal (reachableSound reach2) renames reach fun i j near old =>
    clear (clash i j near old)
  exact ⟨⟨h, names1, names2⟩, by rw [run, copied]; rfl⟩

namespace Joined
variable (joined : Joined first second c)
include joined

theorem adjacent (sound1 : first.Sound) (sound2 : second.Sound) (sound : c.graph.Sound) :
    y ∈ c.graph.adjacent x ↔
      (∃ a b, b ∈ first.adjacent a ∧ named c.first a = x ∧ named c.first b = y) ∨
        ∃ a b, b ∈ second.adjacent a ∧ named c.second a = x ∧ named c.second b = y := by
  rw [nearIff sound, joined.edges.mem_iff, List.mem_append, memRelinked sound1, memRelinked sound2, or_comm]

theorem meetAt (roles : second.Roles) {o i : Int} (output : first.outputs.get? o = some q)
    (input : second.inputs.get? i = some q) : named c.first o = named c.second i := by
  obtain ⟨j, input', same⟩ := joined.meet o q output
  rw [same, Table.sameKey roles.inputsOnce input' input]

theorem clear (sound1 : first.Sound) (sound2 : second.Sound) (roles : second.Roles) :
    ¬ Clash first second := by
  rintro ⟨a, b, i, j, q, r, near1, outputA, outputB, near2, inputI, inputJ⟩
  have once := joined.edges.nodup_iff.mp edgesNodup
  refine (List.nodup_append.mp once).2.2 _ ((memRelinked sound2).mpr ⟨i, j, near2, rfl, rfl⟩) _
    ((memRelinked sound1).mpr ⟨a, b, near1, rfl, rfl⟩) ?_
  rw [joined.meetAt roles outputA inputI, joined.meetAt roles outputB inputJ]

end Joined

theorem sequentialOkIff (reach1 : first.Reachable) (reach2 : second.Reachable) :
    (∃ c, first.sequential second = .ok c) ↔ first.isCanonical = true ∧ second.isCanonical = true ∧
      (∀ q, q ∈ first.outputs.values ↔ q ∈ second.inputs.values) ∧ ¬ Clash first second := by
  constructor
  · rintro ⟨c, ok⟩
    obtain ⟨canonical1, canonical2, joined⟩ :=
      sequentialJoined (reachableRoles reach1) (reachableRoles reach2) ok
    exact ⟨canonical1, canonical2, joined.qubits,
      joined.clear (reachableSound reach1) (reachableSound reach2) (reachableRoles reach2)⟩
  · rintro ⟨canonical1, canonical2, qubits, clear⟩
    exact sequentialTotal reach1 reach2 canonical1 canonical2 qubits clear

theorem sequentialRefused {x : Fault} (reach1 : first.Reachable) (reach2 : second.Reachable)
    (canonical1 : first.isCanonical = true) (canonical2 : second.isCanonical = true)
    (qubits : ∀ q, q ∈ first.outputs.values ↔ q ∈ second.inputs.values)
    (refused : first.sequential second = .error x) : ∃ a b, x = .edgePresent a b := by
  obtain ⟨g, names1, names2, run, reach, renames, _⟩ := sequentialRun reach1 reach2 canonical1 canonical2 qubits
  rw [run] at refused
  cases copied : copyEdges second names2 g with
  | ok h =>
    rw [copied] at refused
    cases refused
  | error y =>
    rw [copied] at refused
    cases refused
    exact copyEdgesRefused (reachableSound reach2) (reachableSound reach) renames copied

theorem sequentialReturnsIff (reach1 : first.Reachable) (reach2 : second.Reachable)
    (canonical1 : first.isCanonical = true) (canonical2 : second.isCanonical = true)
    (qubits : ∀ q, q ∈ first.outputs.values ↔ q ∈ second.inputs.values) :
    ((∃ c, first.sequential second = .ok c) ↔ ¬ Clash first second) ∧
      ((∃ a b, first.sequential second = .error (.edgePresent a b)) ↔ Clash first second) := by
  have returns : (∃ c, first.sequential second = .ok c) ↔ ¬ Clash first second :=
    (sequentialOkIff reach1 reach2).trans
      ⟨fun given => given.2.2.2, fun clear => ⟨canonical1, canonical2, qubits, clear⟩⟩
  refine ⟨returns, ?_, fun clash => ?_⟩
  · rintro ⟨a, b, refused⟩
    by_contra clear
    obtain ⟨c, ok⟩ := returns.mpr clear
    cases refused.symm.trans ok
  · cases outcome : first.sequential second with
    | ok c => exact absurd clash (returns.mp ⟨c, outcome⟩)
    | error x =>
      obtain ⟨a, b, rfl⟩ := sequentialRefused reach1 reach2 canonical1 canonical2 qubits outcome
      exact ⟨a, b, rfl⟩

def braced (a b : Int) : Graph Float := after [.addNode, .addNode, .addNode, .addEdge a b, .registerInput 0,
  .registerInput 1, .registerInput 2, .registerOutput 0 0, .registerOutput 1 1, .registerOutput 2 2]

theorem bracedTwice : (braced 0 1).Reachable ∧ (braced 1 2).Reachable ∧
    ∃ c, (braced 0 1).sequential (braced 1 2) = .ok c := by
  have reach1 : (braced 0 1).Reachable := ⟨_, rfl⟩
  have reach2 : (braced 1 2).Reachable := ⟨_, rfl⟩
  refine ⟨reach1, reach2, (sequentialReturnsIff reach1 reach2 (by decide) (by decide) ?_).1.mpr ?_⟩
  · exact fun q => Iff.rfl
  · have own1 : ∀ e ∈ (braced 0 1).outputs.entries, e.1 = e.2 := by decide
    have own2 : ∀ e ∈ (braced 1 2).inputs.entries, e.1 = e.2 := by decide
    have apart : ∀ a ∈ (braced 0 1).adjacency.keys, ∀ b ∈ ((braced 0 1).adjacent a).toList,
        b ∉ (braced 1 2).adjacent a := by decide
    rintro ⟨a, b, i, j, q, r, near1, outputA, outputB, near2, inputI, inputJ⟩
    have sameA : a = q := own1 _ (Table.memEntries.mpr outputA)
    have sameB : b = r := own1 _ (Table.memEntries.mpr outputB)
    have sameI : i = q := own2 _ (Table.memEntries.mpr inputI)
    have sameJ : j = r := own2 _ (Table.memEntries.mpr inputJ)
    subst sameA sameB sameI sameJ
    exact apart _ (adjacentKey near1) _ near1 near2

theorem bracesClash : (braced 0 1).Reachable ∧ (braced 1 0).Reachable ∧ (braced 0 1).isCanonical = true ∧
    (braced 1 0).isCanonical = true ∧ (braced 0 1).outputs.values = (braced 1 0).inputs.values ∧
    (braced 0 1).sequential (braced 1 0) = .error (.edgePresent 0 1) := by
  have reach1 : (braced 0 1).Reachable := ⟨_, rfl⟩
  refine ⟨reach1, ⟨_, rfl⟩, by decide, by decide, by decide, ?_⟩
  simp only [sequential, copyInputs, byValueCounted (reachableRoles reach1)]
  rfl

end Graph
end OneWay
