import OneWay.Pattern.Compile
import OneWay.Proofs.Order
import OneWay.Proofs.Reachable

/-! What a compiled pattern is made of. Compilation without a schedule succeeds if and only if the graph
is canonical, the flows are given as sets, no node is its own dependant or that of one of its
dependants, the nodes have an order, and the measured ones have bases. -/
namespace OneWay

namespace Flow

theorem asSetOk {c : Correction} {s : NodeSet} : c.asSet = .ok s ↔ c = .nodes s := by
  cases c <;> simp [Correction.asSet]

theorem getSets {f : Flow} {t : Table NodeSet} (ok : f.sets = .ok t) (n : Int) :
    f.get? n = (t.get? n).map Correction.nodes := by
  obtain ⟨keys, each⟩ := Table.getCollect ok
  cases found : f.get? n with
  | none =>
    rw [Table.getNone, ← keys, ← Table.getNone] at found
    rw [found, Option.map_none]
  | some c =>
    obtain ⟨s, set, here⟩ := each n c found
    have eq : c = .nodes s := asSetOk.mp set
    rw [here, Option.map_some, eq]

theorem setsGeneral {f : Flow} {t : Table NodeSet} (ok : f.sets = .ok t) : f.isGeneral = true := by
  simp only [isGeneral, List.all_eq_true]
  intro c mem
  obtain ⟨n, found⟩ := Table.memValues.mp mem
  rw [getSets ok] at found
  obtain ⟨s, _, rfl⟩ := Option.map_eq_some_iff.mp found
  rfl

theorem toSetsOfSets {f : Flow} {t : Table NodeSet} (ok : f.sets = .ok t) (fault : Fault) :
    ∃ u, f.toSets fault = .ok u ∧ ∀ n, Graph.setAt u n = Graph.setAt t n := by
  refine ⟨f.mapValues fun _ c => c.toSet, ?_, ?_⟩
  · rw [toSets, setsGeneral ok, Bool.or_true, if_pos rfl]
  · intro n
    rw [Graph.setAt, Graph.setAt, Table.getMapValues, getSets ok]
    cases t.get? n <;> rfl

theorem getOfSets {t u : Table NodeSet} (ok : (ofSets t).sets = .ok u) (n : Int) :
    u.get? n = t.get? n := by
  have same := getSets ok n
  rw [ofSets, Table.getMapValues] at same
  exact (Option.map_injective (fun a b eq => Correction.nodes.inj eq) same).symm

theorem setsOfSets (t : Table NodeSet) : ∃ u, (ofSets t).sets = .ok u := by
  have each : ∀ e ∈ (ofSets t).entries, ∃ s, e.2.asSet = .ok s := by
    intro e mem
    obtain ⟨e', _, rfl⟩ := List.mem_map.mp mem
    exact ⟨e'.2, rfl⟩
  exact Table.collectTotal (h := fun e : Int × Correction => e.2.asSet) ∅ each

end Flow

namespace Graph
variable {R : Type} [Scalar R] {g : Graph R} {x z : Table NodeSet} {n m : Int}

theorem innerApart : ((g.innerNodes.toList.map fun n => (n, (setAt x n).union ((setAt z n).erase n))) ++
    g.outputNodes.toList.map fun n => (n, (∅ : NodeSet))).map Prod.fst |>.Nodup := by
  simp only [List.map_append, List.map_map, Function.comp_def, List.map_id']
  refine List.nodup_append.mpr ⟨g.innerNodes.nodup, g.outputNodes.nodup, ?_⟩
  intro a inner b output eq
  have outside := (memInnerNodes.mp (NodeSet.memDef.mpr inner)).2
  exact outside (memOutputNodes.mp (NodeSet.memDef.mpr (eq ▸ output)))

theorem dependencyEntry {s : NodeSet} : (n, s) ∈ (g.dependencies x z).entries ↔
    (n ∈ g.innerNodes ∧ s = (setAt x n).union ((setAt z n).erase n)) ∨ (n ∈ g.outputNodes ∧ s = ∅) := by
  rw [dependencies, Table.entriesOfList innerApart, List.mem_append, List.mem_map, List.mem_map]
  simp only [Prod.mk.injEq, NodeSet.memDef]
  constructor
  · intro h
    rcases h with ⟨k, mem, rfl, eq⟩ | ⟨k, mem, rfl, eq⟩
    · exact .inl ⟨mem, eq.symm⟩
    · exact .inr ⟨mem, eq.symm⟩
  · intro h
    rcases h with ⟨mem, eq⟩ | ⟨mem, eq⟩
    · exact .inl ⟨n, mem, rfl, eq.symm⟩
    · exact .inr ⟨n, mem, rfl, eq.symm⟩

theorem dependencyInner (inner : n ∈ g.innerNodes) :
    setAt (g.dependencies x z) n = (setAt x n).union ((setAt z n).erase n) :=
  Dependency.memEntry (dependencyEntry.mpr (.inl ⟨inner, rfl⟩))

theorem dependencyKeys (sound : g.Sound) :
    n ∈ (g.dependencies x z).keys ↔ n ∈ g.nodes := by
  rw [Table.memKeys]
  simp only [← Table.memEntries, dependencyEntry, memInnerNodes, memOutputNodes]
  constructor
  · intro h
    obtain ⟨s, ⟨mem, _⟩ | ⟨mem, _⟩⟩ := h
    · exact mem.1
    · exact sound.outputsThere n mem
  · intro here
    by_cases output : n ∈ g.outputs.keys
    · exact ⟨_, .inr ⟨output, rfl⟩⟩
    · exact ⟨_, .inl ⟨⟨here, output⟩, rfl⟩⟩

theorem dependencyMember : m ∈ setAt (g.dependencies x z) n ↔
    n ∈ g.innerNodes ∧ (m ∈ setAt x n ∨ m ∈ setAt z n ∧ m ≠ n) := by
  constructor
  · intro mem
    rcases dependencyEntry.mp (Dependency.entryOfMember mem) with ⟨inner, eq⟩ | ⟨_, eq⟩
    · rw [eq] at mem
      exact ⟨inner, by simpa using mem⟩
    · rw [eq] at mem
      exact absurd mem NodeSet.notMemEmpty
  · intro given
    obtain ⟨inner, mem⟩ := given
    rw [dependencyInner inner]
    simpa using mem

theorem memChildren {nodes : NodeSet} :
    m ∈ (Frame.ofSets nodes x z).children n ↔ (m ∈ setAt x n ∨ m ∈ setAt z n) ∧ m ≠ n := by
  simp [Frame.children, Frame.ofSets, setAt]

theorem childrenInner {nodes : NodeSet} (inner : n ∈ g.innerNodes) (own : n ∉ setAt x n) :
    (Frame.ofSets nodes x z).children n = setAt (g.dependencies x z) n := by
  refine NodeSet.eqOfMem fun m => ?_
  rw [memChildren, dependencyMember]
  constructor
  · intro given
    obtain ⟨mem, other⟩ := given
    exact ⟨inner, mem.imp_right fun here => ⟨here, other⟩⟩
  · intro given
    obtain ⟨_, here | ⟨here, other⟩⟩ := given
    · exact ⟨.inl here, fun eq => own (eq ▸ here)⟩
    · exact ⟨.inr here, other⟩

theorem dependenciesCongr {x' z' : Table NodeSet} (sameX : ∀ n, setAt x' n = setAt x n)
    (sameZ : ∀ n, setAt z' n = setAt z n) : g.dependencies x' z' = g.dependencies x z := by
  simp only [dependencies, sameX, sameZ]

end Graph

namespace Dependency
variable {lists : Table (List Int)} {n m : Int}

def Leads (lists : Table (List Int)) (n m : Int) : Prop := m ∈ (lists.get? n).getD []

theorem leadsEntry : Leads lists n m ↔ ∃ children, (n, children) ∈ lists.entries ∧ m ∈ children := by
  simp only [Leads, Table.memEntries]
  cases lists.get? n <;> simp

theorem leadsSets {d : Dependency} :
    Leads (d.mapValues fun _ s => s.toList) n m ↔ m ∈ Graph.setAt d n := by
  rw [Leads, Graph.setAt, Table.getMapValues]
  cases d.get? n with
  | none => simp
  | some s => exact NodeSet.memDef.symm

theorem checkListsOk : checkLists lists = .ok () ↔
    ∀ n m, Leads lists n m → m ∈ lists.keys ∧ ¬ Leads lists m n := by
  rw [checkLists, Result.forMOk]
  constructor
  · intro all n m leads
    obtain ⟨children, entry, mem⟩ := leadsEntry.mp leads
    have passed := Result.forMOk.mp (all _ entry) m mem
    rw [Table.memKeys, Leads]
    cases found : lists.get? m with
    | none =>
      rw [found] at passed
      cases passed
    | some back =>
      rw [found] at passed
      by_cases again : n ∈ back
      · simp [again] at passed
      · exact ⟨⟨back, rfl⟩, again⟩
  · rintro all ⟨n, children⟩ entry
    refine Result.forMOk.mpr fun m mem => ?_
    obtain ⟨key, apart⟩ := all n m (leadsEntry.mpr ⟨children, entry, mem⟩)
    obtain ⟨back, found⟩ := Table.memKeys.mp key
    rw [Leads, found] at apart
    rw [found]
    exact if_neg apart

theorem checkOk {d : Dependency} : d.check = .ok () ↔
    ∀ n, ∀ m ∈ Graph.setAt d n, m ∈ d.keys ∧ n ∉ Graph.setAt d m := by
  simp only [check, checkListsOk, leadsSets, Table.keysMapValues]

end Dependency

namespace Graph
variable {R : Type} [Scalar R] {g : Graph R} {xflow zflow : Flow} {x z : Table NodeSet} {n : Int}

theorem checkFlowSets (setsX : xflow.sets = .ok x) (setsZ : zflow.sets = .ok z) :
    g.checkFlow xflow (some zflow) = (g.dependencies x z).check := by
  obtain ⟨x', okX, sameX⟩ := Flow.toSetsOfSets setsX .notFlow
  obtain ⟨z', okZ, sameZ⟩ := Flow.toSetsOfSets setsZ .notZFlow
  rw [← dependenciesCongr sameX sameZ]
  simp only [checkFlow, dependenciesOf, okX, okZ]
  rfl

theorem measurementOk {c : Command R} :
    g.measurement n = .ok c ↔ ∃ basis, g.bases.get? n = some basis ∧ c = .measure n basis := by
  simp only [measurement, Result.bindOk, Result.pureOk, basisAt]
  cases g.bases.get? n with
  | none => simp
  | some basis => simp [eq_comm]

/- The parts that the pattern of a graph is put together from: the corrections as sets, the order of
the nodes, last dependants first, and the measurements in the reverse of it. -/
structure Compiled (g : Graph R) (x z : Table NodeSet) (order : List Int)
    (measured : List (Command R)) : Prop where
  canonical : g.isCanonical = true
  checked : (g.dependencies x z).check = .ok ()
  ordered : (g.dependencies x z).order = .ok order
  measures : List.Forall₂ (fun n c => g.measurement n = .ok c)
    (order.reverse.filter fun n => !g.outputs.contains n) measured

def assemble (g : Graph R) (x z : Table NodeSet) (measured : List (Command R))
    (correctOutputs : Bool) : Pattern R :=
  ⟨g.inputs, g.outputs, (g.nodes.diff g.inputNodes).toList.map Command.prepare ++
    (g.edges.map fun e => Command.entangle e.1 e.2) ++ measured ++
    (if correctOutputs then g.corrections else []), .ofSets g.nodes x z⟩

theorem compileOk {zgiven : Option Flow} {correct : Bool} {p : Pattern R} :
    g.compile xflow zgiven none correct = .ok p ↔ ∃ zflow x z order measured,
      g.zCorrections xflow zgiven = .ok zflow ∧ xflow.sets = .ok x ∧ zflow.sets = .ok z ∧
      Compiled g x z order measured ∧ p = g.assemble x z measured correct := by
  simp only [compile, Result.refuseUnlessOk, Result.bindOk, Result.pureOk, Frame.ofFlows, unscheduled,
    Result.mapMOk]
  constructor
  · intro given
    obtain ⟨canonical, zflow, corrections, _, checked, frame, ⟨x, setsX, z, setsZ, built⟩, order,
      ordered, commands, ⟨measured, measures, listed⟩, made⟩ := given
    subst built listed made
    rw [checkFlowSets setsX setsZ] at checked
    exact ⟨zflow, x, z, order, measured, corrections, setsX, setsZ,
      ⟨canonical, checked, ordered, measures⟩, rfl⟩
  · intro given
    obtain ⟨zflow, x, z, order, measured, corrections, setsX, setsZ, parts, made⟩ := given
    refine ⟨parts.canonical, zflow, corrections, (), ?_, .ofSets g.nodes x z, ⟨x, setsX, z, setsZ, rfl⟩,
      order, parts.ordered, _, ⟨measured, parts.measures, rfl⟩, made.symm⟩
    rw [checkFlowSets setsX setsZ]
    exact parts.checked

theorem zCorrectionsDefault (ok : g.zCorrections xflow none = .ok zflow)
    (setsX : xflow.sets = .ok x) (setsZ : zflow.sets = .ok z) {s : NodeSet}
    (given : x.get? n = some s) : ∃ odd, g.oddNeighbors s = .ok odd ∧ z.get? n = some odd := by
  simp only [zCorrections, Result.bindOk, Result.pureOk] at ok
  obtain ⟨t, collected, made⟩ := ok
  subst made
  have collected' : xflow.entries.foldlM (fun (t : Table NodeSet) e => do
      return t.set e.1 (← e.2.asSet >>= g.oddNeighbors)) ∅ = .ok t := by
    simpa only [bind_assoc] using collected
  have listed : xflow.get? n = some (.nodes s) := by rw [Flow.getSets setsX, given, Option.map_some]
  obtain ⟨odd, found, here⟩ := (Table.getCollect collected').2 n _ listed
  obtain ⟨s', same, found⟩ := Result.bindOk.mp found
  cases Flow.asSetOk.mp same
  exact ⟨odd, found, by rw [Flow.getOfSets setsZ, here]⟩

theorem oddNeighborsTotal {s : NodeSet} (there : ∀ m ∈ s, m ∈ g.nodes ∧ m ∈ g.adjacency.keys) :
    ∃ odd, g.oddNeighbors s = .ok odd := by
  refine Result.foldlMTotal (fun m mem odd => ?_) ∅
  simp only [Result.bindOk, Result.pureOk]
  exact ⟨_, _, neighborsOk.mpr ⟨(there m mem).1, (there m mem).2, rfl⟩, rfl⟩

theorem Sound.oddNeighborsTotal (sound : g.Sound) {s : NodeSet} (there : ∀ m ∈ s, m ∈ g.nodes) :
    ∃ odd, g.oddNeighbors s = .ok odd :=
  Graph.oddNeighborsTotal fun m mem => ⟨there m mem, (sound.keyed m).mp (there m mem)⟩

theorem zCorrectionsTotal (sound : g.Sound) (setsX : xflow.sets = .ok x)
    (there : ∀ n s, x.get? n = some s → ∀ m ∈ s, m ∈ g.nodes) :
    ∃ zflow z, g.zCorrections xflow none = .ok zflow ∧ zflow.sets = .ok z := by
  have each : ∀ e ∈ xflow.entries, ∃ odd, (e.2.asSet >>= g.oddNeighbors) = .ok odd := by
    intro e mem
    have listed : xflow.get? e.1 = some e.2 := Table.memEntries.mp mem
    rw [Flow.getSets setsX] at listed
    obtain ⟨s, given, eq⟩ := Option.map_eq_some_iff.mp listed
    obtain ⟨odd, ok⟩ := sound.oddNeighborsTotal (there e.1 s given)
    exact ⟨odd, Result.bindOk.mpr ⟨s, Flow.asSetOk.mpr eq.symm, ok⟩⟩
  obtain ⟨t, collected⟩ := Table.collectTotal ∅ each
  obtain ⟨z, setsZ⟩ := Flow.setsOfSets t
  refine ⟨.ofSets t, z, ?_, setsZ⟩
  simp only [zCorrections, Result.bindOk, Result.pureOk]
  exact ⟨t, by simpa only [bind_assoc] using collected, rfl⟩

def measuredOrder (g : Graph R) (order : List Int) : List Int :=
  order.reverse.filter fun n => !g.outputs.contains n

variable {order : List Int} {measured : List (Command R)} {m : Int}

theorem Compiled.memberThere (parts : Compiled g x z order measured) (sound : g.Sound)
    (mem : m ∈ setAt (g.dependencies x z) n) : m ∈ g.nodes :=
  (dependencyKeys sound).mp (Dependency.checkOk.mp parts.checked n m mem).1

theorem Compiled.notOwn (parts : Compiled g x z order measured) (inner : n ∈ g.innerNodes) :
    n ∉ setAt x n := by
  intro own
  have mem : n ∈ setAt (g.dependencies x z) n := dependencyMember.mpr ⟨inner, .inl own⟩
  exact (Dependency.checkOk.mp parts.checked n n mem).2 mem

theorem Compiled.children (parts : Compiled g x z order measured) (inner : n ∈ g.innerNodes) :
    (Frame.ofSets g.nodes x z).children n = setAt (g.dependencies x z) n :=
  childrenInner inner (parts.notOwn inner)

theorem Compiled.orderMem (parts : Compiled g x z order measured) (sound : g.Sound) :
    n ∈ order ↔ n ∈ g.nodes := by
  rw [(Dependency.orderSpec parts.ordered).2, Dependency.memVertices, dependencyKeys sound]
  constructor
  · intro h
    rcases h with here | ⟨k, mem⟩
    · exact here
    · exact parts.memberThere sound mem
  · exact .inl

theorem Compiled.measuredMem (parts : Compiled g x z order measured) (sound : g.Sound) :
    n ∈ g.measuredOrder order ↔ n ∈ g.innerNodes := by
  simp [measuredOrder, parts.orderMem sound]

theorem Compiled.measuredNodup (parts : Compiled g x z order measured) :
    (g.measuredOrder order).Nodup :=
  (List.nodup_reverse.mpr (Dependency.orderedNodup (Dependency.orderSpec parts.ordered).1)).filter _

theorem Compiled.measuredLater (parts : Compiled g x z order measured) :
    (g.measuredOrder order).Pairwise fun a b => a ∉ setAt (g.dependencies x z) b := by
  have ahead := Dependency.orderedPairwise (Dependency.orderSpec parts.ordered).1
  exact (List.pairwise_reverse.mpr ahead).filter _

theorem Compiled.measureEach (parts : Compiled g x z order measured) :
    List.Forall₂ (fun n c => ∃ basis, g.bases.get? n = some basis ∧ c = .measure n basis)
      (g.measuredOrder order) measured :=
  parts.measures.imp fun _ _ ok => measurementOk.mp ok

end Graph
end OneWay
