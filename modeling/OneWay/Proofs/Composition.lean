import OneWay.Graph.Composition
import OneWay.Proofs.Meaning
import OneWay.Proofs.Pipeline
import OneWay.Proofs.Roles

/-! What a composed graph is made of. The copies of nodes are new and different from one another, the
outputs of the first graph become the inputs of the second with their qubits, and the edges are the
renamed edges of both graphs. -/
namespace OneWay

theorem Table.writeEachOk {α β ε : Type} {key : α → Except ε Int} {value : α → Except ε β} {xs : List α}
    {acc t : Table β} (apart : xs.Pairwise fun a b => ∀ k, key a = .ok k → key b ≠ .ok k)
    (ok : xs.foldlM (fun t e => do return t.set (← key e) (← value e)) acc = .ok t) :
    (∀ e ∈ xs, ∃ k v, key e = .ok k ∧ value e = .ok v ∧ t.get? k = some v) ∧
      ∀ k, (∀ e ∈ xs, key e ≠ .ok k) → t.get? k = acc.get? k := by
  induction xs generalizing acc with
  | nil =>
    rw [List.foldlM_nil, Result.pureOk] at ok
    simp [ok]
  | cons e rest ih =>
    obtain ⟨other, apart⟩ := List.pairwise_cons.mp apart
    simp only [List.foldlM_cons, Result.bindOk, Result.pureOk] at ok
    obtain ⟨_, ⟨k, keyed, v, valued, rfl⟩, ok⟩ := ok
    obtain ⟨each, others⟩ := ih apart ok
    constructor
    · refine List.forall_mem_cons.mpr ⟨⟨k, v, keyed, valued, ?_⟩, each⟩
      rw [others k fun e mem => other e mem k keyed, getSet, if_pos rfl]
    · intro j absent
      obtain ⟨here, later⟩ := List.forall_mem_cons.mp absent
      have different : j ≠ k := fun eq => here (eq ▸ keyed)
      rw [others j later, getSet, if_neg different]

theorem Table.sameKey {t : Table Int} (once : t.values.Nodup) {a b q : Int} (first : t.get? a = some q)
    (second : t.get? b = some q) : a = b := by
  have same := List.inj_on_of_nodup_map once (memEntries.mpr first) (memEntries.mpr second) rfl
  exact congrArg Prod.fst same

theorem Table.getSwapped {t : Table Int} (once : t.values.Nodup) {o q : Int} :
    (Table.ofList (t.entries.map fun e => (e.2, e.1))).get? q = some o ↔ t.get? o = some q := by
  have keys : ((t.entries.map fun e => (e.2, e.1)).map Prod.fst).Nodup := by
    rw [List.map_map]
    exact once
  rw [← memEntries, entriesOfList keys, ← memEntries, List.mem_map]
  constructor
  · rintro ⟨e, mem, eq⟩
    cases eq
    exact mem
  · exact fun mem => ⟨_, mem, rfl⟩

namespace Graph
variable {R : Type} [Scalar R] {source target g next : Graph R} {names : Table Int} {a b n v : Int}

@[simp] theorem lookUpOk : lookUp names n = .ok v ↔ names.get? n = some v := by
  unfold lookUp
  cases names.get? n <;> simp

def named (names : Table Int) (n : Int) : Int := (names.get? n).getD 0

theorem namedGet (found : names.get? n = some v) : named names n = v := by
  rw [named, found, Option.getD_some]

theorem getNamed (here : n ∈ names.keys) : names.get? n = some (named names n) := by
  obtain ⟨v, found⟩ := Table.memKeys.mp here
  rw [namedGet found, found]

structure Copies (source target g : Graph R) (names : Table Int) : Prop where
  sound : g.Sound
  fresh : ∀ n v, names.get? n = some v → v ∉ target.nodes
  apart : ∀ a b v, names.get? a = some v → names.get? b = some v → a = b
  keys : ∀ v, v ∈ g.nodes ↔ v ∈ target.nodes ∨ ∃ n, names.get? n = some v
  adjacent : ∀ a, g.adjacent a = target.adjacent a
  based : ∀ n v, names.get? n = some v → g.bases.get? v = source.bases.get? n
  kept : ∀ v ∈ target.nodes, g.bases.get? v = target.bases.get? v
  inputs : g.inputs = target.inputs
  outputs : g.outputs = target.outputs
  cliffords : g.cliffords = target.cliffords

theorem copiesNone (sound : target.Sound) : Copies source target target ∅ :=
  ⟨sound, by simp, by simp, by simp, fun _ => rfl, by simp, fun _ _ => rfl, rfl, rfl, rfl⟩

theorem copyNodeSound (sound : g.Sound) : (copyNode source (g, names) n).1.Sound := by
  cases found : source.bases.get? n with
  | none => simpa only [copyNode, found] using addNodeSound sound
  | some basis =>
    have outside : g.next ∉ g.outputs.keys := fun output => sound.nextFresh (sound.outputsThere _ output)
    simp only [copyNode, found]
    exact assignBasisSound (addNodeSound sound)
      (assignBasisOk.mpr ⟨addNodeNodes.mpr (.inl rfl), outside, rfl⟩)

theorem copyNodeBases (sound : g.Sound) : (copyNode source (g, names) n).1.bases.get? v =
    if v = g.next then source.bases.get? n else g.bases.get? v := by
  cases found : source.bases.get? n with
  | none =>
    simp only [copyNode, found]
    split
    · rename_i new
      exact new ▸ Table.getNone.mpr fun old => sound.nextFresh (sound.basesThere _ old)
    · rfl
  | some basis =>
    simp only [copyNode, found]
    exact Table.getSet

theorem copyNodeRest (source g : Graph R) (names : Table Int) (n : Int) :
    ∃ bases, (copyNode source (g, names) n).1 = { g.addNode.2 with bases := bases } := by
  cases found : source.bases.get? n with
  | none => exact ⟨g.bases, by simp only [copyNode, found]; rfl⟩
  | some basis => exact ⟨g.bases.set g.next basis, by simp only [copyNode, found]; rfl⟩

theorem getSetSome {k w : Int} : (names.set n w).get? k = some v ↔
    (k = n ∧ w = v) ∨ (k ≠ n ∧ names.get? k = some v) := by
  rw [Table.getSet]
  split <;> simp_all

theorem Copies.keysStep (copies : Copies source target g names) (new : n ∉ names.keys) :
    v ∈ (copyNode source (g, names) n).1.nodes ↔
      v ∈ target.nodes ∨ ∃ k, (names.set n g.next).get? k = some v := by
  have grown : v ∈ (copyNode source (g, names) n).1.nodes ↔ v = g.next ∨ v ∈ g.nodes := by
    obtain ⟨_, rest⟩ := copyNodeRest source g names n
    rw [rest]
    exact addNodeNodes
  rw [grown, copies.keys]
  constructor
  · rintro (rfl | there | ⟨k, found⟩)
    · exact .inr ⟨n, getSetSome.mpr (.inl ⟨rfl, rfl⟩)⟩
    · exact .inl there
    · have other : k ≠ n := fun same => new (same ▸ Table.memKeys.mpr ⟨v, found⟩)
      exact .inr ⟨k, getSetSome.mpr (.inr ⟨other, found⟩)⟩
  · rintro (there | ⟨k, found⟩)
    · exact .inr (.inl there)
    · rcases getSetSome.mp found with ⟨_, rfl⟩ | ⟨_, found⟩
      · exact .inl rfl
      · exact .inr (.inr ⟨k, found⟩)

theorem Copies.step (copies : Copies source target g names) (new : n ∉ names.keys) :
    Copies source target (copyNode source (g, names) n).1 (names.set n g.next) := by
  obtain ⟨_, rest⟩ := copyNodeRest source g names n
  have unnamed (k : Int) : names.get? k ≠ some g.next := fun found =>
    copies.sound.nextFresh ((copies.keys _).mpr (.inr ⟨k, found⟩))
  refine ⟨copyNodeSound copies.sound, ?_, ?_, fun _ => copies.keysStep new, ?_, ?_, ?_, ?_, ?_, ?_⟩
  · intro k v found
    rcases getSetSome.mp found with ⟨_, rfl⟩ | ⟨_, found⟩
    · exact fun there => copies.sound.nextFresh ((copies.keys _).mpr (.inl there))
    · exact copies.fresh k v found
  · intro a b v first second
    rcases getSetSome.mp first with ⟨rfl, rfl⟩ | ⟨_, first⟩
    · rcases getSetSome.mp second with ⟨same, _⟩ | ⟨_, second⟩
      · exact same.symm
      · exact absurd second (unnamed b)
    · rcases getSetSome.mp second with ⟨_, rfl⟩ | ⟨_, second⟩
      · exact absurd first (unnamed a)
      · exact copies.apart a b v first second
  · intro a
    rw [rest, ← copies.adjacent a, ← addNodeAdjacent copies.sound]
    rfl
  · intro k v found
    rw [copyNodeBases copies.sound]
    rcases getSetSome.mp found with ⟨rfl, rfl⟩ | ⟨_, found⟩
    · rw [if_pos rfl]
    · have other : v ≠ g.next := fun eq => unnamed k (eq ▸ found)
      rw [if_neg other, copies.based k v found]
  · intro v there
    have other : v ≠ g.next := fun eq =>
      copies.sound.nextFresh (eq ▸ (copies.keys v).mpr (.inl there))
    rw [copyNodeBases copies.sound, if_neg other, copies.kept v there]
  · rw [rest]
    exact copies.inputs
  · rw [rest]
    exact copies.outputs
  · rw [rest]
    exact copies.cliffords

theorem copiesOfNodes (source : Graph R) (sound : target.Sound) (nodes : NodeSet) :
    Copies source target (copyNodes source target nodes).1 (copyNodes source target nodes).2 ∧
      ∀ n, n ∈ (copyNodes source target nodes).2.keys ↔ n ∈ nodes := by
  have run : ∀ (ns : List Int) (state : Graph R × Table Int), ns.Nodup →
      (∀ n ∈ ns, n ∉ state.2.keys) → Copies source target state.1 state.2 →
      Copies source target (ns.foldl (copyNode source) state).1 (ns.foldl (copyNode source) state).2 ∧
        ∀ n, n ∈ (ns.foldl (copyNode source) state).2.keys ↔ n ∈ state.2.keys ∨ n ∈ ns := by
    intro ns
    induction ns with
    | nil => exact fun state _ _ copies => ⟨copies, by simp⟩
    | cons n ns ih =>
      intro state once fresh copies
      obtain ⟨new, once⟩ := List.nodup_cons.mp once
      obtain ⟨here, later⟩ := List.forall_mem_cons.mp fresh
      have still : ∀ k ∈ ns, k ∉ (state.2.set n state.1.next).keys := by
        intro k mem
        rw [Table.memKeysSet]
        rintro (rfl | old)
        · exact new mem
        · exact later k mem old
      obtain ⟨copies', keys⟩ := ih (copyNode source state n) once still (copies.step here)
      refine ⟨copies', fun k => ?_⟩
      have step : k ∈ (copyNode source state n).2.keys ↔ k = n ∨ k ∈ state.2.keys := Table.memKeysSet
      rw [List.foldl_cons, keys, step, List.mem_cons, or_assoc, or_left_comm]
  obtain ⟨copies, keys⟩ := run nodes.toList (target, ∅) nodes.nodup (by simp) (copiesNone sound)
  exact ⟨copies, fun n => by rw [copyNodes, keys, NodeSet.memDef]; simp⟩

def relink (names : Table Int) (e : Int × Int) : Int × Int :=
  (min (named names e.1) (named names e.2), max (named names e.1) (named names e.2))

theorem copyEdgesOk (ok : copyEdges source names target = .ok next) :
    next.edges.Perm (source.edges.map (relink names) ++ target.edges) ∧
      (∀ n, n ∈ next.nodes ↔ n ∈ target.nodes) ∧ next.inputs = target.inputs ∧
      next.outputs = target.outputs ∧ next.bases = target.bases ∧ next.cliffords = target.cliffords := by
  rw [copyEdges] at ok
  generalize source.edges = edges at ok
  induction edges generalizing target with
  | nil =>
    rw [List.foldlM_nil, Result.pureOk] at ok
    subst ok
    exact ⟨.refl _, fun n => Iff.rfl, rfl, rfl, rfl, rfl⟩
  | cons e rest ih =>
    simp only [List.foldlM_cons, Result.bindOk, lookUpOk] at ok
    obtain ⟨mid, ⟨a, first, b, second, step⟩, ok⟩ := ok
    obtain ⟨perm, keys, inputs, outputs, bases, cliffords⟩ := ih ok
    obtain ⟨_, inputs', outputs', bases', cliffords'⟩ := addEdgeRest step
    have here : relink names e = (min a b, max a b) := by
      rw [relink, namedGet first, namedGet second]
    refine ⟨?_, fun n => by rw [keys, addEdgeNodes step], inputs.trans inputs', outputs.trans outputs',
      bases.trans bases', cliffords.trans cliffords'⟩
    rw [List.map_cons, here, List.cons_append]
    exact perm.trans (((addEdgePerm step).append_left _).trans List.perm_middle)

theorem copyInputsFrom {es : List (Int × Int)} {state out : Graph R × Table Int} {shift : Int}
    (counted : es.map (fun e => e.2 + shift) = (List.range' state.1.inputs.size es.length).map Int.ofNat)
    (ok : es.foldlM (fun (state : Graph R × Table Int) e => do
      let (q, g) ← state.1.registerInput (← lookUp names e.1)
      return (g, state.2.set e.2 q)) state = .ok out) :
    ∃ inputs, out.1 = { state.1 with inputs := inputs } ∧
      inputs.entries = state.1.inputs.entries ++ es.map (fun e => (named names e.1, e.2 + shift)) ∧
      out.2 = es.foldl (fun t e => t.set e.2 (e.2 + shift)) state.2 := by
  induction es generalizing state with
  | nil =>
    cases ok
    exact ⟨out.1.inputs, rfl, by simp, rfl⟩
  | cons e rest ih =>
    simp only [List.foldlM_cons, Result.bindOk, Result.pureOk, lookUpOk] at ok
    obtain ⟨_, ⟨v, found, reg, registered, rfl⟩, ok⟩ := ok
    obtain ⟨_, fresh, number, rest'⟩ := registerInputOk.mp registered
    rw [List.length_cons, List.range'_succ, List.map_cons, List.map_cons, List.cons.injEq] at counted
    have entries : reg.2.inputs.entries = state.1.inputs.entries ++ [(named names e.1, e.2 + shift)] := by
      rw [rest', namedGet found, counted.1]
      exact Table.entriesSet fresh
    have size : reg.2.inputs.size = state.1.inputs.size + 1 := by
      rw [Table.size, entries, List.length_append]
      rfl
    obtain ⟨inputs, same, listed, qubits⟩ := ih (by rw [size]; exact counted.2) ok
    rw [rest'] at same
    refine ⟨inputs, same, ?_, ?_⟩
    · rw [listed, entries, List.append_assoc]
      rfl
    · rw [qubits, List.foldl_cons, number, counted.1]
      rfl

theorem byValueCounted (roles : source.Roles) : source.inputs.byValue = source.inputs.entries := by
  refine List.mergeSort_of_pairwise ?_
  have up : (source.inputs.entries.map Prod.snd).Pairwise (· < ·) := by
    have counted : source.inputs.entries.map Prod.snd = _ := roles.counted
    rw [counted, List.pairwise_map]
    exact List.pairwise_lt_range.imp fun below => Int.ofNat_lt.mpr below
  exact (List.pairwise_map.mp up).imp fun below => decide_eq_true (Int.le_of_lt below)

theorem Roles.inputsOnce (roles : g.Roles) : g.inputs.values.Nodup := by
  rw [roles.counted]
  exact List.nodup_range.map fun _ _ => Int.ofNat.inj

theorem copyInputsAfter {qubits : Table Int} (roles : source.Roles)
    (ok : copyInputs source names target = .ok (next, qubits)) :
    ∃ inputs, next = { target with inputs := inputs } ∧
      inputs.entries = target.inputs.entries ++
        source.inputs.entries.map (fun e => (named names e.1, e.2 + (target.inputs.size : Int))) ∧
      ∀ q ∈ source.inputs.values, qubits.get? q = some (q + target.inputs.size) := by
  rw [copyInputs, byValueCounted roles] at ok
  have counted : source.inputs.entries.map (fun e => e.2 + (target.inputs.size : Int)) =
      (List.range' target.inputs.size source.inputs.entries.length).map Int.ofNat := by
    have values : source.inputs.values.map (· + (target.inputs.size : Int)) =
        (List.range' target.inputs.size source.inputs.entries.length).map Int.ofNat := by
      rw [roles.counted, List.range'_eq_map_range, List.map_map, List.map_map]
      exact List.map_congr_left fun k _ => Int.add_comm _ _
    rw [← values, Table.values, List.map_map]
    rfl
  obtain ⟨inputs, same, entries, moved⟩ := copyInputsFrom counted ok
  refine ⟨inputs, same, entries, fun q value => ?_⟩
  have once : ((source.inputs.entries.map fun e => (e.2, e.2 + (target.inputs.size : Int))).map
      Prod.fst).Nodup := by
    rw [List.map_map]
    exact roles.inputsOnce
  have listed : qubits = Table.ofList (source.inputs.entries.map fun e =>
      (e.2, e.2 + (target.inputs.size : Int))) := by
    rw [Table.ofList, List.foldl_map]
    exact moved
  obtain ⟨e, mem, rfl⟩ := List.mem_map.mp value
  rw [listed, ← Table.memEntries, Table.entriesOfList once]
  exact List.mem_map_of_mem mem

theorem copyInputsOk {qubits : Table Int} (roles : source.Roles) (none : target.inputs = ∅)
    (ok : copyInputs source names target = .ok (next, qubits)) :
    ∃ inputs, next = { target with inputs := inputs } ∧
      inputs.entries = source.inputs.entries.map (fun e => (named names e.1, e.2)) := by
  obtain ⟨inputs, same, entries, _⟩ := copyInputsAfter roles ok
  have zero : ((∅ : Table Int).size : Int) = 0 := rfl
  rw [none, zero] at entries
  simp only [Int.add_zero] at entries
  exact ⟨inputs, same, entries⟩

theorem copyOutputsAfter {rename : Int → Except Fault Int} (label : Int → Int)
    (renamed : ∀ q ∈ source.outputs.values, rename q = .ok (label q))
    (ok : copyOutputs source names rename target = .ok next) :
    ∃ outputs, next = { target with outputs := outputs } ∧ outputs.entries =
      target.outputs.entries ++ source.outputs.entries.map (fun e => (named names e.1, label e.2)) := by
  have run : ∀ (es : List (Int × Int)) (g : Graph R), (∀ e ∈ es, rename e.2 = .ok (label e.2)) →
      es.foldlM (fun g e => do g.registerOutput (← lookUp names e.1) (← rename e.2)) g = .ok next →
      ∃ outputs, next = { g with outputs := outputs } ∧
        outputs.entries = g.outputs.entries ++ es.map (fun e => (named names e.1, label e.2)) := by
    intro es
    induction es with
    | nil =>
      intro g _ ok
      cases ok
      exact ⟨next.outputs, rfl, by simp⟩
    | cons e rest ih =>
      intro g renamed ok
      obtain ⟨here, later⟩ := List.forall_mem_cons.mp renamed
      simp only [List.foldlM_cons, Result.bindOk, lookUpOk] at ok
      obtain ⟨mid, ⟨v, found, q, qubit, step⟩, ok⟩ := ok
      cases here.symm.trans qubit
      obtain ⟨_, fresh, _, _, _, rfl⟩ := registerOutputOk.mp step
      obtain ⟨outputs, same, entries⟩ := ih _ later ok
      refine ⟨outputs, same, ?_⟩
      rw [entries, Table.entriesSet fresh, List.append_assoc, List.map_cons, namedGet found]
      rfl
  exact run source.outputs.entries target (fun e mem => renamed e.2 (List.mem_map_of_mem mem)) ok

theorem copyOutputsOk {rename : Int → Except Fault Int} (label : Int → Int)
    (renamed : ∀ q ∈ source.outputs.values, rename q = .ok (label q)) (none : target.outputs = ∅)
    (ok : copyOutputs source names rename target = .ok next) :
    ∃ outputs, next = { target with outputs := outputs } ∧
      outputs.entries = source.outputs.entries.map (fun e => (named names e.1, label e.2)) := by
  obtain ⟨outputs, same, entries⟩ := copyOutputsAfter label renamed ok
  rw [none] at entries
  exact ⟨outputs, same, entries⟩

theorem Roles.crossingSize {first second : Graph R} (roles1 : first.Roles) (roles2 : second.Roles)
    (meet : ∀ q, q ∈ first.outputs.values ↔ q ∈ second.inputs.values) :
    first.outputs.size = second.inputs.size := by
  have perm := (List.perm_ext_iff_of_nodup roles1.outputsOnce roles2.inputsOnce).mpr meet
  simpa [Table.values, Table.size] using perm.length_eq

theorem identifyOk {first second : Graph R} {names1 names2 names : Table Int} (roles1 : first.Roles)
    (roles2 : second.Roles) (meet : ∀ q, q ∈ first.outputs.values ↔ q ∈ second.inputs.values)
    (ok : identify first second names1 names2 = .ok names) :
    (∀ o q, first.outputs.get? o = some q → ∃ i v, second.inputs.get? i = some q ∧
      names2.get? i = some v ∧ names.get? o = some v) ∧
      ∀ n ∉ first.outputs.keys, names.get? n = names1.get? n := by
  have swapped (o q : Int) := Table.getSwapped (o := o) (q := q) roles1.outputsOnce
  have apart : second.inputs.entries.Pairwise fun a b => ∀ o,
      lookUp (Table.ofList (first.outputs.entries.map fun e => (e.2, e.1))) a.2 = .ok o →
      lookUp (Table.ofList (first.outputs.entries.map fun e => (e.2, e.1))) b.2 ≠ .ok o := by
    refine (List.pairwise_map.mp roles2.inputsOnce).imp fun {a b} different o left right => different ?_
    rw [lookUpOk, swapped] at left right
    exact Option.some.inj (left.symm.trans right)
  obtain ⟨each, others⟩ := Table.writeEachOk apart ok
  simp only [lookUpOk, swapped] at each
  refine ⟨fun o q output => ?_, fun n inner => others n fun e mem output => ?_⟩
  · obtain ⟨i, input⟩ := Table.memValues.mp ((meet q).mp (Table.memValues.mpr ⟨o, output⟩))
    obtain ⟨o', v, output', named, found⟩ := each (i, q) (Table.memEntries.mpr input)
    cases Table.sameKey roles1.outputsOnce output output'
    exact ⟨i, v, input, named, found⟩
  · exact inner (Table.memKeys.mpr ⟨_, (swapped _ _).mp (lookUpOk.mp output)⟩)

/- Two graphs one after the other: the measured nodes of the first beside all nodes of the second. -/
structure Joined (first second : Graph R) (c : Composition R) : Prop where
  keys : ∀ v, v ∈ c.graph.nodes ↔
    (∃ n ∈ first.innerNodes, named c.first n = v) ∨ ∃ n ∈ second.nodes, named c.second n = v
  firstApart : ∀ a ∈ first.innerNodes, ∀ b ∈ first.innerNodes, named c.first a = named c.first b → a = b
  secondApart : ∀ a ∈ second.nodes, ∀ b ∈ second.nodes, named c.second a = named c.second b → a = b
  apart : ∀ a ∈ first.innerNodes, ∀ b ∈ second.nodes, named c.first a ≠ named c.second b
  meet : ∀ o q, first.outputs.get? o = some q →
    ∃ i, second.inputs.get? i = some q ∧ named c.first o = named c.second i
  qubits : ∀ q, q ∈ first.outputs.values ↔ q ∈ second.inputs.values
  inputs : c.graph.inputs.entries = first.inputs.entries.map fun e => (named c.first e.1, e.2)
  outputs : c.graph.outputs.entries = second.outputs.entries.map fun e => (named c.second e.1, e.2)
  firstBases : ∀ n ∈ first.innerNodes, c.graph.bases.get? (named c.first n) = first.bases.get? n
  secondBases : ∀ n ∈ second.nodes, c.graph.bases.get? (named c.second n) = second.bases.get? n
  cliffords : c.graph.cliffords = ∅
  edges : c.graph.edges.Perm (second.edges.map (relink c.second) ++ first.edges.map (relink c.first))

theorem requireCanonicalOk {first second : Graph R} {u : Unit} :
    requireCanonical first second = .ok u ↔ first.isCanonical = true ∧ second.isCanonical = true := by
  unfold requireCanonical
  cases first.isCanonical <;> cases second.isCanonical <;>
    simp [Result.bindOk, Result.pureOk, Result.throwOk]

theorem namedRange {nodes : NodeSet} {label : Int → Int} (keys : ∀ n, n ∈ names.keys ↔ n ∈ nodes)
    (each : ∀ n ∈ nodes, names.get? n = some (label n)) :
    (∃ n, names.get? n = some v) ↔ ∃ n ∈ nodes, label n = v := by
  constructor
  · rintro ⟨n, found⟩
    have node := (keys n).mp (Table.memKeys.mpr ⟨v, found⟩)
    exact ⟨n, node, Option.some.inj ((each n node).symm.trans found)⟩
  · rintro ⟨n, node, rfl⟩
    exact ⟨n, each n node⟩

theorem edgeless (bare : ∀ a, g.adjacent a = (empty : Graph R).adjacent a) : g.edges = [] := by
  refine List.eq_nil_iff_forall_not_mem.mpr fun e mem => ?_
  have near := (memEdges.mp mem).1
  rw [bare] at near
  exact notAdjacent (by simp [empty]) near

theorem sequentialJoined {first second : Graph R} {c : Composition R} (roles1 : first.Roles)
    (roles2 : second.Roles) (ok : first.sequential second = .ok c) :
    first.isCanonical = true ∧ second.isCanonical = true ∧ Joined first second c := by
  rw [sequential] at ok
  simp only [Result.bindOk, Result.pureOk, Result.refuseIfOk, requireCanonicalOk] at ok
  obtain ⟨copies1, keys1⟩ := copiesOfNodes first emptySound first.innerNodes
  generalize first.copyNodes empty first.innerNodes = part1 at ok copies1 keys1
  obtain ⟨copies2, keys2⟩ := copiesOfNodes second copies1.sound second.nodes
  generalize second.copyNodes part1.1 second.nodes = part2 at ok copies2 keys2
  obtain ⟨_, ⟨canonical1, canonical2⟩, same, names, identified, ⟨g1, _⟩, inputsOk, g2, outputsOk, g3,
    edgesOk1, g4, edgesOk2, rfl⟩ := ok
  refine ⟨canonical1, canonical2, ?_⟩
  have qubits (q : Int) : q ∈ first.outputs.values ↔ q ∈ second.inputs.values := by
    rw [← NodeSet.memOfList, ← NodeSet.memOfList, not_not.mp same]
  obtain ⟨meet, kept⟩ := identifyOk roles1 roles2 qubits identified
  obtain ⟨inputs, same1, entries1⟩ :=
    copyInputsOk roles1 (by rw [copies2.inputs, copies1.inputs]; rfl) inputsOk
  have noOutputs : g1.outputs = ∅ := by
    rw [same1]
    exact copies2.outputs.trans copies1.outputs
  obtain ⟨outputs, same2, entries2⟩ := copyOutputsOk id (fun _ _ => rfl) noOutputs outputsOk
  have marked : g2 = { part2.1 with inputs := inputs, outputs := outputs } := by rw [same2, same1]
  obtain ⟨perm1, there1, inputs3, outputs3, bases3, cliffords3⟩ := copyEdgesOk edgesOk1
  obtain ⟨perm2, there2, inputs4, outputs4, bases4, cliffords4⟩ := copyEdgesOk edgesOk2
  have innerName (n : Int) (inner : n ∈ first.innerNodes) : part1.2.get? n = some (named names n) := by
    have there := getNamed ((keys1 n).mpr inner)
    have plain := kept n (memInnerNodes.mp inner).2
    rw [there, namedGet (plain.trans there)]
  have name (n : Int) (node : n ∈ second.nodes) : part2.2.get? n = some (named part2.2 n) :=
    getNamed ((keys2 n).mpr node)
  have bases : g4.bases = part2.1.bases := by rw [bases4, bases3, marked]
  have old (n : Int) (inner : n ∈ first.innerNodes) : named names n ∈ part1.1.nodes :=
    (copies1.keys _).mpr (.inr ⟨n, innerName n inner⟩)
  refine ⟨?_, ?_, ?_, ?_, ?_, qubits, ?_, ?_, ?_, ?_, ?_, ?_⟩
  · intro v
    rw [there2, there1, marked, copies2.keys, copies1.keys]
    simp only [empty, NodeSet.notMemEmpty, false_or]
    exact or_congr (namedRange keys1 innerName) (namedRange keys2 name)
  · exact fun a innerA b innerB eq =>
      copies1.apart a b _ (innerName a innerA) (eq ▸ innerName b innerB)
  · exact fun a nodeA b nodeB eq => copies2.apart a b _ (name a nodeA) (eq ▸ name b nodeB)
  · exact fun a inner b node eq => copies2.fresh b _ (name b node) (eq ▸ old a inner)
  · intro o q output
    obtain ⟨i, v, input, named2, named1⟩ := meet o q output
    exact ⟨i, input, (namedGet named1).trans (namedGet named2).symm⟩
  · rw [inputs4, inputs3, marked]
    exact entries1
  · rw [outputs4, outputs3, marked]
    exact entries2
  · intro n inner
    rw [bases, copies2.kept _ (old n inner), copies1.based n _ (innerName n inner)]
  · intro n node
    rw [bases, copies2.based n _ (name n node)]
  · rw [cliffords4, cliffords3, marked]
    exact copies2.cliffords.trans copies1.cliffords
  · have plain (a : Int) : g2.adjacent a = part2.1.adjacent a := by
      rw [marked]
      rfl
    have none : g2.edges = [] := edgeless fun a => by
      rw [plain, copies2.adjacent, copies1.adjacent]
    rw [none, List.append_nil] at perm1
    exact perm2.trans (perm1.append_left _)

theorem Joined.canonical {first second : Graph R} {c : Composition R} (roles1 : first.Roles)
    (roles2 : second.Roles) (joined : Joined first second c) (canonical1 : first.isCanonical = true)
    (canonical2 : second.isCanonical = true) : c.graph.isCanonical = true := by
  obtain ⟨size1, _, based1⟩ := canonicalIff.mp canonical1
  obtain ⟨size2, _, based2⟩ := canonicalIff.mp canonical2
  have crossing := roles1.crossingSize roles2 joined.qubits
  refine canonicalIff.mpr ⟨?_, by rw [joined.cliffords]; rfl, fun v inner => ?_⟩
  · rw [Table.size, joined.inputs, Table.size, joined.outputs, List.length_map, List.length_map]
    exact size1.trans (crossing.trans size2)
  · obtain ⟨there, measured⟩ := memInnerNodes.mp inner
    rcases (joined.keys v).mp there with ⟨n, own, rfl⟩ | ⟨n, node, rfl⟩
    · obtain ⟨basis, found⟩ := Table.memKeys.mp (based1 n own)
      exact Table.memKeys.mpr ⟨basis, (joined.firstBases n own).trans found⟩
    · have plain : n ∉ second.outputs.keys := by
        intro output
        obtain ⟨q, found⟩ := Table.memKeys.mp output
        refine measured (List.mem_map.mpr ⟨(named c.second n, q), ?_, rfl⟩)
        rw [joined.outputs]
        exact List.mem_map.mpr ⟨(n, q), Table.memEntries.mpr found, rfl⟩
      obtain ⟨basis, found⟩ := Table.memKeys.mp
        (based2 n (memInnerNodes.mpr ⟨node, plain⟩))
      exact Table.memKeys.mpr ⟨basis, (joined.secondBases n node).trans found⟩

end Graph
end OneWay
