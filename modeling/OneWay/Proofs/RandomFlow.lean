import OneWay.Graph.Random
import OneWay.Proofs.Causality
import OneWay.Proofs.Ranking
import OneWay.Proofs.Roles

/-! Random graphs with a flow. Whatever is drawn, nodes come in rows: a node is joined to the one before it
in its row, which it corrects, and to nodes of its own layer. So corrections lead from one layer to the next,
and what they disturb lies there or beyond. -/
namespace OneWay
variable {R : Type} [Scalar R]

theorem rangeAt {n i a : Nat} (listed : (List.range n)[i]? = some a) : i < n ∧ a = i := by
  obtain ⟨below, rfl⟩ := List.getElem?_eq_some_iff.mp listed
  exact ⟨by simpa using below, List.getElem_range _⟩

namespace Edit

theorem foldlMOk {σ α : Type} (step : σ → α → Edit R σ) (xs : List α) {s : σ} {g : Graph R}
    (P : Nat → σ → Graph R → Prop) (start : P 0 s g)
    (each : ∀ i s g a, xs[i]? = some a → P i s g →
      ∃ s' g', (step s a).apply g = (.ok s', g') ∧ P (i + 1) s' g') :
    ∃ s' g', (xs.foldlM step s).apply g = (.ok s', g') ∧ P xs.length s' g' := by
  induction xs generalizing P s g with
  | nil => exact ⟨s, g, rfl, start⟩
  | cons x xs ih =>
    obtain ⟨s', g', first, after⟩ := each 0 s g x rfl start
    obtain ⟨s'', g'', later, done⟩ := ih (fun i => P (i + 1)) after fun i s g a listed =>
      each (i + 1) s g a (by simpa using listed)
    refine ⟨s'', g'', ?_, done⟩
    rw [List.foldlM_cons, bindWent first, later]

end Edit

namespace Graph
variable {g g' : Graph R} {w m k : Nat} {l : Int} {flow : Table NodeSet} {growth : Growth}
  {threshold : R} {draw : Nat → R}

/- Nodes in rows, so many to a layer: each is joined to its successor, by which it is corrected, and
otherwise only to nodes of its layer, up to a node from which on there are no such edges yet. -/
structure Rows (w k : Nat) (l : Int) (g : Graph R) (flow : Table NodeSet) : Prop where
  sound : g.Sound
  next : g.next = k
  nodes : ∀ n, n ∈ g.nodes ↔ 0 ≤ n ∧ n < k
  corrects : ∀ n, flow.get? n = if 0 ≤ n ∧ n + w < k then some (.singleton (n + w)) else none
  ahead : ∀ n : Int, 0 ≤ n → n + w < k → n + w ∈ g.adjacent n
  near : ∀ a b, b ∈ g.adjacent a → b = a + w ∨ a = b + w ∨ a / w = b / w ∧ min a b < l

structure Posted (w m k : Nat) (g : Graph R) : Prop where
  inputs : ∀ n, n ∈ g.inputs.keys ↔ 0 ≤ n ∧ n < min k w
  inputsSize : g.inputs.size = min k w
  outputs : ∀ n, n ∈ g.outputs.keys ↔ m ≤ n ∧ n < k
  values : g.outputs.values = (List.range (k - m)).map Int.ofNat
  bases : ∀ n, n ∈ g.bases.keys ↔ 0 ≤ n ∧ n < min k m
  plain : g.cliffords = ∅

structure SamePosts (g g' : Graph R) : Prop where
  inputs : g'.inputs = g.inputs
  outputs : g'.outputs = g.outputs
  bases : g'.bases = g.bases
  cliffords : g'.cliffords = g.cliffords

theorem Posted.kept (posted : Posted w m k g) (same : SamePosts g g') : Posted w m k g' := by
  constructor
  · rw [same.inputs]
    exact posted.inputs
  · rw [same.inputs]
    exact posted.inputsSize
  · rw [same.outputs]
    exact posted.outputs
  · rw [same.outputs]
    exact posted.values
  · rw [same.bases]
    exact posted.bases
  · rw [same.cliffords]
    exact posted.plain

theorem emptyRows : Rows w 0 0 (empty : Graph R) ∅ where
  sound := emptySound
  next := rfl
  nodes n := by simp [empty]
  corrects n := by rw [if_neg (by omega)]; rfl
  ahead n low high := by omega
  near a b mem := absurd mem (notAdjacent (by simp [empty]))

theorem emptyPosted : Posted w m 0 (empty : Graph R) where
  inputs n := by simp [empty]
  inputsSize := by simp [empty]; rfl
  outputs n := by simp [empty]; omega
  values := by simp [empty]; rfl
  bases n := by simp [empty]
  plain := rfl

theorem Rows.added (rows : Rows w k l g flow) (nodes : g'.nodes = g.addNode.2.nodes)
    (adjacency : g'.adjacency = g.addNode.2.adjacency) :
    (∀ n, g'.adjacent n = g.adjacent n) ∧ ∀ n, n ∈ g'.nodes ↔ 0 ≤ n ∧ n < (k + 1 : Nat) := by
  refine ⟨fun n => ?_, fun n => ?_⟩
  · rw [← addNodeAdjacent rows.sound, adjacent, adjacency, adjacent]
  · rw [nodes, addNodeNodes, rows.nodes, rows.next]
    omega

theorem Rows.begin (rows : Rows w k l g flow) (first : k < w) (sound : g'.Sound)
    (nodes : g'.nodes = g.addNode.2.nodes) (adjacency : g'.adjacency = g.addNode.2.adjacency)
    (next : g'.next = g.next + 1) :
    Rows w (k + 1) l g' flow := by
  obtain ⟨adjacent, keys⟩ := rows.added nodes adjacency
  refine ⟨sound, ?_, keys, fun n => ?_, fun n low high => ?_, fun a b mem => ?_⟩
  · rw [next, rows.next]
    rfl
  · rw [rows.corrects, if_neg (by omega), if_neg (by omega)]
  · omega
  · exact rows.near a b (adjacent a ▸ mem)

theorem Rows.follow (rows : Rows w k l g growth.flow) (wide : 0 < w) (room : w ≤ k) (sound : g'.Sound)
    (nodes : g'.nodes = g.addNode.2.nodes) (adjacency : g'.adjacency = g.addNode.2.adjacency)
    (next : g'.next = g.next + 1) :
    ∃ growth' left, (Graph.follow w growth k).apply g' = (.ok growth', left) ∧
      Rows w (k + 1) l left growth'.flow ∧ SamePosts g' left := by
  obtain ⟨adjacent, keys⟩ := rows.added nodes adjacency
  have fresh : ∀ n, (k : Int) ∉ g.adjacent n := fun n mem => by
    have there := (rows.nodes k).mp (rows.sound.neighborThere mem)
    omega
  obtain ⟨left, ok⟩ := addEdgeTotal (a := k - w) (b := k) sound ((keys _).mpr (by omega))
    ((keys _).mpr (by omega)) (by rw [adjacent]; exact fresh _) (by omega)
  obtain ⟨counter, inputs, outputs, bases, cliffords⟩ := addEdgeRest ok
  refine ⟨{ growth with flow := growth.flow.set (k - w) (.singleton k) }, left,
    Edit.bindOk.mpr ⟨(), left, Edit.stepOk.mpr ok, rfl⟩, ⟨addEdgeSound sound ok, ?_, fun n => ?_, fun n => ?_,
    fun n low high => ?_, fun a b mem => ?_⟩, ⟨inputs, outputs, bases, cliffords⟩⟩
  · rw [counter, next, rows.next]
    rfl
  · rw [addEdgeNodes ok, keys]
  · rw [Table.getSet, rows.corrects]
    by_cases here : n = k - w
    · rw [if_pos here, if_pos (by omega), here]
      simp
    · rw [if_neg here]
      exact if_congr (by omega) rfl rfl
  · rw [addEdgeAdjacent ok, adjacent]
    by_cases here : n = k - w
    · exact .inr (.inl ⟨here, by omega⟩)
    · exact .inl (rows.ahead n low (by omega))
  · rw [addEdgeAdjacent ok, adjacent] at mem
    rcases mem with old | ⟨atA, atB⟩ | ⟨atB, atA⟩
    · exact rows.near a b old
    · exact .inl (by omega)
    · exact .inr (.inl (by omega))

theorem Rows.mono (rows : Rows w k l g flow) {l' : Int} (above : l ≤ l') : Rows w k l' g flow := by
  refine ⟨rows.sound, rows.next, rows.nodes, rows.corrects, rows.ahead, fun a b mem => ?_⟩
  rcases rows.near a b mem with up | down | ⟨same, low⟩
  · exact .inl up
  · exact .inr (.inl down)
  · exact .inr (.inr ⟨same, by omega⟩)

theorem Rows.link (rows : Rows w k l g growth.flow) {n : Int} (above : l ≤ n) (start : 0 ≤ n)
    (stop : n + 1 < k) (layer : n / w = (n + 1) / w) (wide : 1 < w) :
    ∃ growth' left, (Graph.link threshold draw growth (n, n + 1)).apply g = (.ok growth', left) ∧
      Rows w k (n + 1) left growth'.flow ∧ SamePosts g left := by
  have wider : Rows w k (n + 1) g growth.flow := rows.mono (by omega)
  by_cases drawn : Scalar.lt (draw growth.draws) threshold = true
  · have apart : n + 1 ∉ g.adjacent n := by
      intro mem
      have reach := rows.near n (n + 1) mem
      omega
    obtain ⟨left, ok⟩ := addEdgeTotal rows.sound ((rows.nodes n).mpr (by omega))
      ((rows.nodes (n + 1)).mpr (by omega)) apart (by omega)
    obtain ⟨counter, inputs, outputs, bases, cliffords⟩ := addEdgeRest ok
    refine ⟨{ growth with draws := growth.draws + 1 }, left, ?_, ⟨addEdgeSound rows.sound ok,
      counter.trans rows.next, fun a => (addEdgeNodes ok).trans (rows.nodes a), rows.corrects,
      fun a low high => ?_, fun a b mem => ?_⟩, ⟨inputs, outputs, bases, cliffords⟩⟩
    · rw [Graph.link, if_pos drawn]
      exact Edit.bindOk.mpr ⟨(), left, Edit.stepOk.mpr ok, rfl⟩
    · exact (addEdgeAdjacent ok).mpr (.inl (rows.ahead a low high))
    · rcases (addEdgeAdjacent ok).mp mem with old | ⟨rfl, rfl⟩ | ⟨rfl, rfl⟩
      · exact wider.near a b old
      · exact .inr (.inr ⟨layer, by omega⟩)
      · exact .inr (.inr ⟨layer.symm, by omega⟩)
  · refine ⟨{ growth with draws := growth.draws + 1 }, g, ?_, wider, ⟨rfl, rfl, rfl, rfl⟩⟩
    rw [Graph.link, if_neg drawn]
    rfl

theorem addInputOk (rows : Rows w k l g flow) (posted : Posted w m k g) (first : k < w) (fits : w ≤ m) :
    ∃ left, (addInput : Edit R Int).apply g = (.ok (k : Int), left) ∧ Rows w (k + 1) l left flow ∧
      Posted w m (k + 1) left := by
  have there : (k : Int) ∈ g.addNode.2.nodes := ((rows.added rfl rfl).2 k).mpr (by omega)
  have newInput : (k : Int) ∉ g.inputs.keys := by rw [posted.inputs]; omega
  have noOutput : (k : Int) ∉ g.outputs.keys := by rw [posted.outputs]; omega
  have number : (k : Int) = g.inputs.size := by rw [posted.inputsSize]; omega
  obtain ⟨mid, registered⟩ : ∃ mid, g.addNode.2.registerInput k = .ok ((k : Int), mid) :=
    ⟨_, registerInputOk.mpr ⟨there, newInput, number, rfl⟩⟩
  have sound := registerInputSound (addNodeSound rows.sound) registered
  obtain ⟨_, _, _, same⟩ := registerInputOk.mp registered
  have assigned : mid.assignBasis k Basis.default = .ok { mid with bases := mid.bases.set k Basis.default } :=
    assignBasisOk.mpr ⟨same ▸ there, same ▸ noOutput, rfl⟩
  have based := assignBasisSound sound assigned
  refine ⟨_, Edit.bindOk.mpr ⟨(k : Int), _, Edit.addNodeOk.mpr ⟨rows.next.symm, rfl⟩, Edit.bindOk.mpr
    ⟨(k : Int), mid, Edit.stepWithOk.mpr registered,
      Edit.bindOk.mpr ⟨(), _, Edit.stepOk.mpr assigned, rfl⟩⟩⟩, ?_⟩
  subst same
  refine ⟨rows.begin first based rfl rfl rfl, fun n => ?_, ?_, fun n => ?_, ?_, fun n => ?_, posted.plain⟩
  · exact Table.memKeysSet.trans (by rw [addNode, posted.inputs]; omega)
  · exact (Table.valuesSet newInput).2.trans (by rw [posted.inputsSize]; omega)
  · exact (posted.outputs n).trans (by omega)
  · have none : k + 1 - m = k - m := by omega
    exact none ▸ posted.values
  · exact Table.memKeysSet.trans (by rw [addNode, posted.bases]; omega)

theorem growLayerOk (rows : Rows w k l g growth.flow) (posted : Posted w m k g) (wide : 0 < w) (room : w ≤ k)
    (inner : k < m) (layer : List Int) (i : Nat) : ∃ growth' left,
      (growLayer w (growth, layer) i).apply g = (.ok (growth', layer ++ [(k : Int)]), left) ∧
      Rows w (k + 1) l left growth'.flow ∧ Posted w m (k + 1) left := by
  have there : (k : Int) ∈ g.addNode.2.nodes := ((rows.added rfl rfl).2 k).mpr (by omega)
  have noOutput : (k : Int) ∉ g.outputs.keys := by rw [posted.outputs]; omega
  have assigned : g.addNode.2.assignBasis k Basis.default = .ok
      { g.addNode.2 with bases := g.addNode.2.bases.set k Basis.default } :=
    assignBasisOk.mpr ⟨there, noOutput, rfl⟩
  have sound := assignBasisSound (addNodeSound rows.sound) assigned
  obtain ⟨growth', left, followed, rows', same⟩ := rows.follow wide room sound rfl rfl rfl
  refine ⟨growth', left, Edit.bindOk.mpr ⟨(k : Int), _, Edit.addNodeOk.mpr ⟨rows.next.symm, rfl⟩,
    Edit.bindOk.mpr ⟨(), _, Edit.stepOk.mpr assigned, Edit.bindOk.mpr ⟨growth', left, followed, rfl⟩⟩⟩, rows',
    Posted.kept ?_ same⟩
  refine ⟨fun n => ?_, ?_, fun n => ?_, ?_, fun n => ?_, posted.plain⟩
  · exact (posted.inputs n).trans (by omega)
  · exact posted.inputsSize.trans (by omega)
  · exact (posted.outputs n).trans (by omega)
  · have none : k + 1 - m = k - m := by omega
    exact none ▸ posted.values
  · exact Table.memKeysSet.trans (by rw [addNode, posted.bases]; omega)

theorem addOutputOk (rows : Rows w k l g growth.flow) (posted : Posted w m k g) (fits : w ≤ m) {i : Nat}
    (place : k = m + i) (last : i < w) : ∃ growth' left,
      (addOutput w growth i).apply g = (.ok growth', left) ∧ Rows w (k + 1) l left growth'.flow ∧
      Posted w m (k + 1) left := by
  have there : (k : Int) ∈ g.addNode.2.nodes := ((rows.added rfl rfl).2 k).mpr (by omega)
  have newOutput : (k : Int) ∉ g.outputs.keys := by rw [posted.outputs]; omega
  have noBasis : (k : Int) ∉ g.bases.keys := by rw [posted.bases]; omega
  have known : ¬ (g.inputs.size : Int) ≤ i := by rw [posted.inputsSize]; omega
  have unused : (i : Int) ∉ g.outputs.values := by
    rw [posted.values, List.mem_map]
    rintro ⟨j, mem, same⟩
    have below := List.mem_range.mp mem
    have equal : j = i := Int.ofNat.inj same
    omega
  have registered := (registerOutputOk (g := g.addNode.2)).mpr ⟨there, newOutput, noBasis, known, unused, rfl⟩
  have sound := registerOutputSound (addNodeSound rows.sound) registered
  obtain ⟨growth', left, followed, rows', same⟩ := rows.follow (by omega) (by omega) sound rfl rfl rfl
  refine ⟨growth', left, Edit.bindOk.mpr ⟨(k : Int), _, Edit.addNodeOk.mpr ⟨rows.next.symm, rfl⟩,
    Edit.bindOk.mpr ⟨(), _, Edit.stepOk.mpr registered, followed⟩⟩, rows', Posted.kept ?_ same⟩
  refine ⟨fun n => ?_, ?_, fun n => ?_, ?_, fun n => ?_, posted.plain⟩
  · exact (posted.inputs n).trans (by omega)
  · exact posted.inputsSize.trans (by omega)
  · exact Table.memKeysSet.trans (by rw [addNode, posted.outputs]; omega)
  · have count : k + 1 - m = k - m + 1 := by omega
    have number : (i : Int) = Int.ofNat (k - m) := congrArg Int.ofNat (by omega)
    rw [count, List.range_succ, List.map_append, ← posted.values, number]
    exact (Table.valuesSet newOutput).1
  · exact (posted.bases n).trans (by omega)

theorem inputsOk (fits : w ≤ m) {i : Nat} (upTo : i ≤ w) :
    ∃ g, ((List.range i).mapM fun _ => (addInput : Edit R Int)).apply empty =
      (.ok ((List.range i).map Int.ofNat), g) ∧ Rows w i 0 g ∅ ∧ Posted w m i g := by
  induction i with
  | zero => exact ⟨empty, rfl, emptyRows, emptyPosted⟩
  | succ i ih =>
    obtain ⟨g, ran, rows, posted⟩ := ih (by omega)
    obtain ⟨left, added, rows', posted'⟩ := addInputOk rows posted (by omega) fits
    refine ⟨left, ?_, rows', posted'⟩
    rw [List.range_succ, List.mapM_append, List.map_append]
    refine Edit.bindOk.mpr ⟨_, g, ran, Edit.bindOk.mpr ⟨[(i : Int)], left, ?_, rfl⟩⟩
    rw [List.mapM_cons, List.mapM_nil]
    exact Edit.bindOk.mpr ⟨(i : Int), left, added, rfl⟩

def layerFrom (k i : Nat) : List Int := (List.range i).map fun j : Nat => (k : Int) + j

theorem layerSucc {i : Nat} : layerFrom k (i + 1) = layerFrom k i ++ [((k + i : Nat) : Int)] := by
  rw [layerFrom, List.range_succ, List.map_append]
  rfl

theorem layerGrown (rows : Rows w k k g growth.flow) (posted : Posted w m k g) (room : w ≤ k)
    (inner : k + w ≤ m) : ∃ growth' left,
      ((List.range w).foldlM (growLayer w) (growth, [])).apply g = (.ok (growth', layerFrom k w), left) ∧
      Rows w (k + w) k left growth'.flow ∧ Posted w m (k + w) left := by
  obtain ⟨⟨growth', layer⟩, left, ran, rows', posted', rfl⟩ := Edit.foldlMOk (s := (growth, []))
    (growLayer w) (List.range w)
    (fun i state g => Rows w (k + i) k g state.1.flow ∧ Posted w m (k + i) g ∧ state.2 = layerFrom k i)
    ⟨rows, posted, rfl⟩ fun i state g a listed before => by
      obtain ⟨rows, posted, layer⟩ := before
      have below := (rangeAt listed).1
      obtain ⟨growth', left, ran, rows', posted'⟩ :=
        growLayerOk rows posted (by omega) (by omega) (by omega) state.2 a
      exact ⟨(growth', _), left, ran, rows', posted', by rw [layer, layerSucc]⟩
  rw [List.length_range] at rows' posted' ran
  exact ⟨growth', left, ran, rows', posted'⟩

theorem layerPairs {i : Nat} {pair : Int × Int}
    (listed : ((layerFrom k w).zip ((layerFrom k w).drop 1))[i]? = some pair) :
    pair = (((k + i : Nat) : Int), ((k + i : Nat) : Int) + 1) ∧ i + 1 < w := by
  obtain ⟨first, second⟩ := List.getElem?_zip_eq_some.mp listed
  rw [List.getElem?_drop] at second
  simp only [layerFrom, List.getElem?_map, Option.map_eq_some_iff] at first second
  obtain ⟨_, one, lower⟩ := first
  obtain ⟨_, two, upper⟩ := second
  obtain ⟨_, rfl⟩ := rangeAt one
  obtain ⟨below, rfl⟩ := rangeAt two
  exact ⟨Prod.ext (by rw [← lower]; rfl) (by rw [← upper]; omega), by omega⟩

theorem sameLayer {i : Nat} (whole : w ∣ k) (inside : i + 1 < w) :
    ((k + i : Nat) : Int) / w = (((k + i : Nat) : Int) + 1) / w := by
  have divides : (w : Int) ∣ k := Int.natCast_dvd_natCast.mpr whole
  have row (j : Nat) (below : j < w) : ((k + j : Nat) : Int) / w = k / w := by
    have first : (j : Int) / w = 0 := Int.ediv_eq_zero_of_lt (by omega) (by omega)
    rw [Int.natCast_add, Int.add_ediv_of_dvd_left divides, first, Int.add_zero]
  exact (row i (by omega)).trans (row (i + 1) inside).symm

theorem nextLayer (wide : 0 < w) (u : Int) : (u + w) / w = u / w + 1 := by
  rw [Int.add_ediv_of_dvd_right (Int.dvd_refl _), Int.ediv_self (by omega)]

theorem layerLinked (rows : Rows w (k + w) k g growth.flow) (posted : Posted w m (k + w) g) (whole : w ∣ k) :
    ∃ growth' left, (((layerFrom k w).zip ((layerFrom k w).drop 1)).foldlM (link threshold draw) growth).apply
      g = (.ok growth', left) ∧ Rows w (k + w) (k + w) left growth'.flow ∧ Posted w m (k + w) left := by
  obtain ⟨growth', left, ran, rows', posted'⟩ := Edit.foldlMOk (link threshold draw)
    ((layerFrom k w).zip ((layerFrom k w).drop 1))
    (fun i growth g => Rows w (k + w) ((k + i : Nat) : Int) g growth.flow ∧ Posted w m (k + w) g)
    ⟨rows, posted⟩ fun i growth g pair listed before => by
      obtain ⟨rows, posted⟩ := before
      obtain ⟨rfl, inside⟩ := layerPairs listed
      obtain ⟨growth', left, linked, rows', same⟩ := rows.link le_rfl (by omega) (by omega)
        (sameLayer whole inside) (by omega)
      exact ⟨growth', left, linked, rows', posted.kept same⟩
  refine ⟨growth', left, ran, rows'.mono ?_, posted'⟩
  rw [List.length_zip, List.length_drop, layerFrom, List.length_map, List.length_range]
  omega

theorem layerOk (rows : Rows w k k g growth.flow) (posted : Posted w m k g) (whole : w ∣ k) (room : w ≤ k)
    (inner : k + w ≤ m) : ∃ growth' left, (addLayer w threshold draw growth).apply g = (.ok growth', left) ∧
      Rows w (k + w) (k + w) left growth'.flow ∧ Posted w m (k + w) left := by
  obtain ⟨grown, mid, first, rows, posted⟩ := layerGrown rows posted room inner
  obtain ⟨growth', left, later, rows', posted'⟩ := layerLinked rows posted whole
  rw [addLayer]
  exact ⟨growth', left, Edit.bindOk.mpr ⟨_, mid, first, later⟩, rows', posted'⟩

theorem layersOk (threshold : R) (draw : Nat → R) (rows : Rows w w w g growth.flow) (posted : Posted w m w g)
    {layers : Nat} (fits : m = w * (layers + 1)) : ∃ growth' left, ((List.range layers).foldlM
      (fun growth _ => addLayer w threshold draw growth) growth).apply g = (.ok growth', left) ∧
      Rows w m m left growth'.flow ∧ Posted w m m left := by
  obtain ⟨growth', left, ran, rows', posted'⟩ := Edit.foldlMOk
    (fun growth (_ : Nat) => addLayer w threshold draw growth) (List.range layers)
    (fun i growth g => Rows w (w * (i + 1)) ((w * (i + 1) : Nat) : Int) g growth.flow ∧
      Posted w m (w * (i + 1)) g)
    ⟨by simpa using rows, by simpa using posted⟩ fun i growth g a listed before => by
      have below := (rangeAt listed).1
      have room : w * (i + 1 + 1) ≤ m := fits ▸ Nat.mul_le_mul_left w (by omega)
      exact layerOk before.1 before.2 (Nat.dvd_mul_right w (i + 1)) (Nat.le_mul_of_pos_right w (by omega)) room
  rw [List.length_range, ← fits] at rows' posted'
  exact ⟨growth', left, ran, rows', posted'⟩

theorem outputsOk (rows : Rows w m l g growth.flow) (posted : Posted w m m g) (fits : w ≤ m) :
    ∃ growth' left, (((List.range w).map Int.ofNat).foldlM (addOutput w) growth).apply g = (.ok growth', left) ∧
      Rows w (m + w) l left growth'.flow ∧ Posted w m (m + w) left := by
  obtain ⟨growth', left, ran, rows', posted'⟩ := Edit.foldlMOk (addOutput w) ((List.range w).map Int.ofNat)
    (fun i growth g => Rows w (m + i) l g growth.flow ∧ Posted w m (m + i) g) ⟨rows, posted⟩
    fun i growth g q listed before => by
      rw [List.getElem?_map, Option.map_eq_some_iff] at listed
      obtain ⟨_, number, rfl⟩ := listed
      obtain ⟨below, rfl⟩ := rangeAt number
      exact addOutputOk before.1 before.2 fits rfl below
  rw [List.length_map, List.length_range] at rows' posted'
  exact ⟨growth', left, ran, rows', posted'⟩

theorem randomOk (width depth : Int) (threshold : R) (draw : Nat → R) {layers : Nat} (wide : w = width.toNat)
    (deep : layers = (depth - 2).toNat) (fits : m = w * (layers + 1)) :
    ∃ flow g, (random width depth threshold draw).apply empty = (.ok flow, g) ∧ Rows w (m + w) m g flow ∧
      Posted w m (m + w) g := by
  have room : w ≤ m := fits ▸ Nat.le_mul_of_pos_right w (by omega)
  obtain ⟨g₁, inputs, rows₁, posted₁⟩ := inputsOk (R := R) room le_rfl
  have start : Rows w w w g₁ (⟨∅, 0⟩ : Growth).flow := rows₁.mono (by omega)
  obtain ⟨growth₂, g₂, layered, rows₂, posted₂⟩ := layersOk threshold draw start posted₁ fits
  obtain ⟨growth₃, g₃, outputs, rows₃, posted₃⟩ := outputsOk rows₂ posted₂ room
  subst wide deep
  refine ⟨growth₃.flow, g₃, ?_, rows₃, posted₃⟩
  exact Edit.bindOk.mpr ⟨_, g₁, inputs, Edit.bindOk.mpr ⟨growth₂, g₂, layered,
    Edit.bindOk.mpr ⟨growth₃, g₃, outputs, rfl⟩⟩⟩

/- A flow that corrects each measured node by one neighbour, no two by the same and none by an input, and a
strict order in which a node comes before the one it is corrected by and before all others that this one
is joined to. -/
structure CausalFlow (g : Graph R) (flow : Table NodeSet) (f : Int → Int)
    (before : Int → Int → Prop) : Prop where
  defined : ∀ u, flow.get? u = if u ∈ g.innerNodes then some (.singleton (f u)) else none
  injective : ∀ u ∈ g.innerNodes, ∀ v ∈ g.innerNodes, f u = f v → u = v
  target : ∀ u ∈ g.innerNodes, f u ∈ g.nodes ∧ f u ∉ g.inputNodes
  neighbor : ∀ u ∈ g.innerNodes, f u ∈ g.adjacent u
  irrefl : ∀ u, ¬ before u u
  trans : ∀ u v w, before u v → before v w → before u w
  ahead : ∀ u ∈ g.innerNodes, before u (f u)
  disturbed : ∀ u ∈ g.innerNodes, ∀ v ∈ g.adjacent (f u), v ≠ u → before u v

variable {f : Int → Int} {before : Int → Int → Prop}

theorem CausalFlow.corrections (causal : CausalFlow g flow f before) {n v : Int} :
    v ∈ setAt flow n ↔ n ∈ g.innerNodes ∧ v = f n := by
  rw [setAt, causal.defined]
  split
  · rename_i inner
    simp [inner]
  · rename_i outer
    simp [outer]

theorem CausalFlow.informs (causal : CausalFlow g flow f before) {n v : Int}
    (told : g.Informs flow none n v) : before n v := by
  obtain ⟨inner, direct | ⟨other, odd⟩⟩ := told
  · rw [(causal.corrections.mp direct).2]
    exact causal.ahead n inner
  · have odd : Odd (g.hits (setAt flow n) v) := odd
    have touched : g.hits (setAt flow n) v ≠ 0 := fun none => Nat.not_odd_zero (none ▸ odd)
    obtain ⟨t, mem, near⟩ := List.countP_pos_iff.mp (Nat.pos_of_ne_zero touched)
    rw [(causal.corrections.mp mem).2, decide_eq_true_eq] at near
    exact causal.disturbed n inner v near other

theorem CausalFlow.compiles (causal : CausalFlow g flow f before) (sound : g.Sound)
    (canonical : g.isCanonical = true) (correct : Bool) :
    ∃ p, g.compile (.ofSets flow) none none correct = .ok p := by
  have targets : ∀ n, ∀ v ∈ setAt flow n, v ∈ g.nodes := by
    intro n v mem
    obtain ⟨inner, rfl⟩ := causal.corrections.mp mem
    exact (causal.target n inner).1
  obtain ⟨zflow, x, z, corrections, setsX, setsZ, awaits⟩ := informed sound targets none
  have later : ∀ n v, (g.dependencies x z).Awaits n v → before n v := fun n v needed =>
    causal.informs ((awaits n v).mp needed)
  have path : ∀ n v, Relation.TransGen (g.dependencies x z).Awaits n v → before n v := by
    intro n v steps
    induction steps with
    | single first => exact later _ _ first
    | tail _ last ih => exact causal.trans _ _ _ ih (later _ _ last)
  have checked : (g.dependencies x z).check = .ok () := by
    refine Dependency.checkOk.mpr fun n v mem => ⟨(dependencyKeys sound).mpr ?_, fun back => ?_⟩
    · exact sound.informsThere targets (by simp) ((awaits n v).mp mem)
    · exact causal.irrefl n (causal.trans _ _ _ (later n v mem) (later v n back))
  obtain ⟨order, ordered⟩ := Dependency.orderOfAcyclic fun n cycle => causal.irrefl n (path n n cycle)
  obtain ⟨measured, parts⟩ := orderMeasured sound canonical checked ordered
  exact ⟨_, compileOk.mpr ⟨zflow, x, z, order, measured, corrections, setsX, setsZ, parts, rfl⟩⟩

theorem Posted.canonical (rows : Rows w (m + w) l g flow) (posted : Posted w m (m + w) g) :
    g.isCanonical = true := by
  have outputs : g.outputs.size = w := by
    have counted := congrArg List.length posted.values
    simpa [Table.values, Table.size] using counted
  refine canonicalIff.mpr ⟨?_, ?_, fun n inner => ?_⟩
  · rw [posted.inputsSize, outputs]
    omega
  · rw [posted.plain]
    rfl
  · obtain ⟨there, outside⟩ := memInnerNodes.mp inner
    rw [rows.nodes] at there
    rw [posted.outputs] at outside
    rw [posted.bases]
    omega

theorem Rows.causal (rows : Rows w (m + w) l g flow) (posted : Posted w m (m + w) g) :
    CausalFlow g flow (· + w) fun u v => u / w < v / w := by
  have inner (u : Int) : u ∈ g.innerNodes ↔ 0 ≤ u ∧ u < m := by
    rw [memInnerNodes, rows.nodes, posted.outputs]
    omega
  -- A measured node is joined to its successor, which is another node, so that layers are not empty.
  have wide (u : Int) (here : u ∈ g.innerNodes) : 0 < w := by
    rw [inner] at here
    refine Nat.pos_of_ne_zero fun none => rows.sound.loopless u ?_
    simpa [none] using rows.ahead u here.1 (by omega)
  refine ⟨fun u => ?_, fun u _ v _ same => ?_, fun u here => ?_, fun u here => ?_, fun u => Int.lt_irrefl _,
    fun u v w => Int.lt_trans, fun u here => ?_, fun u here v near other => ?_⟩
  · exact (rows.corrects u).trans (if_congr (by rw [inner]; omega) rfl rfl)
  · have same : u + w = v + w := same
    omega
  · rw [inner] at here
    rw [memInputNodes, rows.nodes, posted.inputs]
    omega
  · rw [inner] at here
    exact rows.ahead u here.1 (by omega)
  · rw [nextLayer (wide u here)]
    omega
  · have up := nextLayer (wide u here) u
    rcases rows.near (u + w) v near with after | back | ⟨same, _⟩
    · rw [after, nextLayer (wide u here), up]
      omega
    · omega
    · omega

theorem randomCompiles (width depth : Int) (threshold : R) (draw : Nat → R) :
    ∃ flow g f before, (random width depth threshold draw).apply empty = (.ok flow, g) ∧
      g.isCanonical = true ∧ (g.nodes.size : Int) = max width 0 * max depth 2 ∧
      CausalFlow g flow f before ∧
      ∀ correct, ∃ p, g.compile (.ofSets flow) none none correct = .ok p := by
  obtain ⟨flow, g, ran, rows, posted⟩ := randomOk width depth threshold draw rfl rfl rfl
  have canonical := posted.canonical rows
  have causal := rows.causal posted
  refine ⟨flow, g, _, _, ran, canonical, ?_, causal, causal.compiles rows.sound canonical⟩
  have nodes : g.nodes = Times.numbers _ := NodeSet.eqOfMem fun n => by
    rw [rows.nodes, Times.memNumbers]
  have wide : max width 0 = (width.toNat : Int) := by omega
  have deep : max depth 2 = ((depth - 2).toNat : Int) + 2 := by omega
  rw [nodes, Times.sizeNumbers, wide, deep]
  push_cast
  rw [Int.mul_add, Int.mul_add]
  omega

end Graph
end OneWay
