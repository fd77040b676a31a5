import OneWay.Proofs.Composition
import OneWay.Proofs.Refusal

/-! All that expanding the Cliffords on inputs does to a graph. Each input on which a Clifford waited has a
chain of its own, made of new nodes; besides these chains no node, edge or basis is added and none is
lost. Every logical qubit enters where it did before, or at the first node of the chain. -/
namespace OneWay

namespace Chain

def nodes (chain : Chain) : List Int := [chain.first, chain.second, chain.third]

def links (chain : Chain) (v : Int) : List (Int × Int) :=
  [(chain.first, chain.second), (chain.second, chain.third), (chain.third, v)]

theorem linksFrom {chain : Chain} {v a b : Int} (mem : (a, b) ∈ chain.links v) : a ∈ chain.nodes := by
  simp only [links, List.mem_cons, Prod.mk.injEq, List.not_mem_nil, or_false] at mem
  simp only [nodes, List.mem_cons, List.not_mem_nil, or_false]
  exact mem.imp And.left (Or.imp And.left And.left)

end Chain

namespace Graph
variable {R : Type} [Scalar R] {g mid left : Graph R} {chain : Chain} {c : LocalClifford R} {a b v : Int}
  {o : Int × Option Chain} {ns ms : List Int} {made more : List (Int × Chain)} {out : List (Int × Option Chain)}

structure Fronts (left : Graph R) (chain : Chain) (v : Int) (c : LocalClifford R) : Prop where
  there : ∀ n ∈ chain.nodes, n ∈ left.nodes
  apart : [chain.first, chain.second, chain.third, v].Nodup
  first : chain.second ∈ left.adjacent chain.first
  second : chain.third ∈ left.adjacent chain.second
  third : v ∈ left.adjacent chain.third
  alpha : left.bases.get? chain.first = some (.planar .xy c.unitary.alpha)
  beta : left.bases.get? chain.second = some (.planar .xy c.unitary.beta)
  gamma : left.bases.get? chain.third = some (.planar .xy c.unitary.gamma)

theorem Fronts.stays (fronts : Fronts g chain v c) (stays : Stays g left) : Fronts left chain v c where
  there n mem := stays.nodes n (fronts.there n mem)
  apart := fronts.apart
  first := stays.edges _ _ fronts.first
  second := stays.edges _ _ fronts.second
  third := stays.edges _ _ fronts.third
  alpha := (stays.bases _ (fronts.there _ (by simp [Chain.nodes]))).trans fronts.alpha
  beta := (stays.bases _ (fronts.there _ (by simp [Chain.nodes]))).trans fronts.beta
  gamma := (stays.bases _ (fronts.there _ (by simp [Chain.nodes]))).trans fronts.gamma

namespace Fronted
variable (front : Fronted g v c left)
include front

theorem stays (sound : g.Sound) : Stays g left where
  nodes n mem := (front.keys n).mpr (.inl mem)
  edges a b mem := (front.adjacent a b).mpr (.inl mem)
  bases n mem := by
    have old := sound.numbered n mem
    simp only [front.bases, Table.getSet]
    rw [if_neg (by omega), if_neg (by omega), if_neg (by omega)]

theorem fronts (below : v < g.next) : Fronts left ⟨g.next, g.next + 1, g.next + 2⟩ v c where
  there n mem := (front.keys n).mpr (.inr (by simpa [Chain.nodes] using mem))
  apart := by
    simp
    omega
  first := (front.adjacent _ _).mpr (.inr (.inl (by simp)))
  second := (front.adjacent _ _).mpr (.inr (.inl (by simp)))
  third := (front.adjacent _ _).mpr (.inr (.inl (by simp)))
  alpha := by simp [front.bases]
  beta := by simp [front.bases]
  gamma := by simp [front.bases]

end Fronted

structure Attached (g : Graph R) (ns : List Int) (made : List (Int × Chain)) (left : Graph R) : Prop where
  nodes : ∀ n, n ∈ left.nodes ↔ n ∈ g.nodes ∨ ∃ e ∈ made, n ∈ e.2.nodes
  edges : ∀ a b, b ∈ left.adjacent a ↔
    b ∈ g.adjacent a ∨ ∃ e ∈ made, (a, b) ∈ e.2.links e.1 ∨ (b, a) ∈ e.2.links e.1
  bases : ∀ n ∈ g.nodes, left.bases.get? n = g.bases.get? n
  outputs : left.outputs = g.outputs
  cliffords : ∀ n, left.cliffords.get? n = if n ∈ ns then none else g.cliffords.get? n
  fronts : ∀ e ∈ made, ∃ c, g.cliffords.get? e.1 = some c ∧ Fronts left e.2 e.1 c
  fresh : ∀ e ∈ made, ∀ n ∈ e.2.nodes, n ∉ g.nodes
  apart : (made.flatMap fun e => e.2.nodes).Nodup
  listed : ∀ v, v ∈ made.map Prod.fst ↔ v ∈ ns ∧ v ∈ g.cliffords.keys
  once : (made.map Prod.fst).Nodup

namespace Attached

theorem stays (attached : Attached g ns made left) : Stays g left where
  nodes n mem := (attached.nodes n).mpr (.inl mem)
  edges a b mem := (attached.edges a b).mpr (.inl mem)
  bases := attached.bases

theorem edgesKept (attached : Attached g ns made left) (hereA : a ∈ g.nodes) (hereB : b ∈ g.nodes) :
    b ∈ left.adjacent a ↔ b ∈ g.adjacent a := by
  rw [attached.edges, or_iff_left]
  rintro ⟨e, mem, link | link⟩
  · exact attached.fresh e mem a (Chain.linksFrom link) hereA
  · exact attached.fresh e mem b (Chain.linksFrom link) hereB

theorem renewed (attached : Attached g ns made left) (inputs : Table Int) :
    Attached g ns made { left with inputs := inputs } := by
  refine { attached with fronts := fun e mem => ?_ }
  obtain ⟨c, waiting, fronts⟩ := attached.fronts e mem
  exact ⟨c, waiting, { fronts with }⟩

theorem nil (g : Graph R) : Attached g [] [] g := by
  constructor <;> simp

theorem plain (free : g.cliffords.get? v = none) :
    Attached g [v] [] { g with cliffords := g.cliffords.erase v } where
  nodes n := by simp
  edges a b := by
    simp only [List.not_mem_nil, false_and, exists_false, or_false]
    exact Iff.rfl
  bases n _ := rfl
  outputs := rfl
  cliffords n := by simp
  fronts := by simp
  fresh := by simp
  apart := by simp
  listed w := by
    simp only [List.map_nil, List.not_mem_nil, List.mem_singleton, false_iff, not_and]
    rintro rfl
    exact Table.getNone.mp free
  once := by simp

theorem fronted (sound : g.Sound) (here : v ∈ g.nodes) (waiting : g.cliffords.get? v = some c)
    (front : Fronted g v c left) : Attached g [v] [(v, ⟨g.next, g.next + 1, g.next + 2⟩)] left where
  nodes n := by simp [front.keys, Chain.nodes]
  edges a b := by simp only [front.adjacent, Chain.links, List.mem_singleton, exists_eq_left]
  bases := (front.stays sound).bases
  outputs := front.outputs
  cliffords n := by simp [front.cliffords]
  fronts := by
    rw [List.forall_mem_singleton]
    exact ⟨c, waiting, front.fronts (sound.numbered v here)⟩
  fresh := by
    rw [List.forall_mem_singleton]
    intro n new old
    have below := sound.numbered n old
    simp only [Chain.nodes, List.mem_cons, List.not_mem_nil, or_false] at new
    omega
  apart := by simp [Chain.nodes]
  listed w := by
    simp only [List.map_cons, List.map_nil, List.mem_singleton]
    constructor
    · rintro rfl
      exact ⟨rfl, Table.memKeys.mpr ⟨c, waiting⟩⟩
    · exact And.left
  once := by simp

theorem cliffordsLeft (first : Attached g ns made mid) : v ∈ mid.cliffords.keys ↔ v ∈ g.cliffords.keys ∧ v ∉ ns := by
  rw [Table.memKeys, Table.memKeys, first.cliffords]
  by_cases mem : v ∈ ns <;> simp [mem]

theorem trans (first : Attached g ns made mid) (second : Attached mid ms more left)
    (apart : ∀ n ∈ ns, n ∉ ms) : Attached g (ns ++ ms) (made ++ more) left where
  nodes n := by
    rw [second.nodes, first.nodes, or_assoc]
    simp only [List.mem_append, or_and_right, exists_or]
  edges a b := by
    rw [second.edges, first.edges, or_assoc]
    simp only [List.mem_append, or_and_right, exists_or]
  bases n mem := (second.bases n (first.stays.nodes n mem)).trans (first.bases n mem)
  outputs := second.outputs.trans first.outputs
  cliffords n := by
    rw [second.cliffords, first.cliffords]
    by_cases early : n ∈ ns <;> by_cases late : n ∈ ms <;> simp [early, late]
  fronts := by
    rw [List.forall_mem_append]
    refine ⟨fun e mem => ?_, fun e mem => ?_⟩
    · obtain ⟨c, waiting, fronts⟩ := first.fronts e mem
      exact ⟨c, waiting, fronts.stays second.stays⟩
    · obtain ⟨c, waiting, fronts⟩ := second.fronts e mem
      rw [first.cliffords, Option.ite_none_left_eq_some] at waiting
      exact ⟨c, waiting.2, fronts⟩
  fresh := by
    rw [List.forall_mem_append]
    exact ⟨first.fresh, fun e mem n new old => second.fresh e mem n new (first.stays.nodes n old)⟩
  apart := by
    rw [List.flatMap_append, List.nodup_append']
    refine ⟨first.apart, second.apart, fun n early late => ?_⟩
    obtain ⟨e, mem, new⟩ := List.mem_flatMap.mp early
    obtain ⟨e', mem', new'⟩ := List.mem_flatMap.mp late
    exact second.fresh e' mem' n new' ((first.nodes n).mpr (.inr ⟨e, mem, new⟩))
  listed v := by
    rw [List.map_append, List.mem_append, first.listed, second.listed, first.cliffordsLeft, List.mem_append]
    have other := apart v
    tauto
  once := by
    rw [List.map_append, List.nodup_append']
    refine ⟨first.once, second.once, fun v early late => ?_⟩
    exact apart v ((first.listed v).mp early).1 ((second.listed v).mp late).1

end Attached

theorem replacedCons {n : Int} : replaced (n :: ns) (o :: out) = replaced [n] [o] ++ replaced ns out := by
  rw [replaced, replaced, replaced, ← List.filterMap_append]
  rfl

def HandsOver (g : Graph R) (v : Int) (o : Int × Option Chain) : Prop :=
  g.cliffords.get? v = none ∧ o = (v, none) ∨ ∃ chain, o = (chain.first, some chain)

theorem expandInputAttached (sound : g.Sound) (here : v ∈ g.nodes)
    (ran : (expandInput v).apply g = (.ok o, mid)) :
    Attached g [v] (replaced [v] [o]) mid ∧ g.HandsOver v o := by
  cases waiting : g.cliffords.get? v with
  | none =>
    cases (expandInputPlain waiting).symm.trans ran
    exact ⟨.plain waiting, .inl ⟨waiting, rfl⟩⟩
  | some c =>
    obtain ⟨mid', ran', front⟩ := expandInputChain sound here waiting
    cases ran'.symm.trans ran
    exact ⟨.fronted sound here waiting front, .inr ⟨⟨g.next, g.next + 1, g.next + 2⟩, rfl⟩⟩

theorem expandEachAttached (sound : g.Sound) (once : ns.Nodup) (there : ∀ n ∈ ns, n ∈ g.nodes)
    (ran : (ns.mapM expandInput).apply g = (.ok out, left)) :
    Attached g ns (replaced ns out) left ∧ ∀ v o, (v, o) ∈ ns.zip out → g.HandsOver v o := by
  induction ns generalizing g out with
  | nil =>
    cases ran
    exact ⟨.nil left, by simp⟩
  | cons n ns ih =>
    rw [List.mapM_cons] at ran
    obtain ⟨o, mid, first, ran⟩ := Edit.bindOk.mp ran
    obtain ⟨rest, left', later, done⟩ := Edit.bindOk.mp ran
    cases done
    obtain ⟨other, once⟩ := List.nodup_cons.mp once
    obtain ⟨here, there⟩ := List.forall_mem_cons.mp there
    obtain ⟨attached, handed⟩ := expandInputAttached sound here first
    obtain ⟨attachedLater, handedLater⟩ := ih ((Edit.soundSteps.expandInput n).run sound first) once
      (fun m mem => attached.stays.nodes m (there m mem)) later
    rw [replacedCons]
    refine ⟨attached.trans attachedLater (by simpa using other), fun v o' mem => ?_⟩
    rcases List.mem_cons.mp mem with same | mem
    · cases same
      exact handed
    · have apart : v ≠ n := fun same => other (same ▸ (List.of_mem_zip mem).1)
      refine (handedLater v o' mem).imp_left fun plain => ⟨?_, plain.2⟩
      rw [← plain.1, attached.cliffords, if_neg (by simpa using apart)]

theorem Roles.takesOver {inputs : Table Int} {out : List (Int × Option Chain)} (roles : g.Roles)
    (numbered : inputs.entries = (out.map Prod.fst).zipIdx.map fun e => (e.1, (e.2 : Int)))
    (listed : (v, o) ∈ (g.inputs.byValue.map Prod.fst).zip out) : inputs.get? o.1 = g.inputs.get? v := by
  obtain ⟨i, place⟩ := List.mem_iff_getElem?.mp listed
  obtain ⟨old, new⟩ := List.getElem?_zip_eq_some.mp place
  have counted : (g.inputs.entries.map Prod.snd)[i]? = ((List.range g.inputs.size).map Int.ofNat)[i]? :=
    congrArg (·[i]?) roles.counted
  rw [byValueCounted roles, List.getElem?_map, Option.map_eq_some_iff] at old
  obtain ⟨⟨w, q⟩, entry, rfl⟩ := old
  have inside : i < g.inputs.size := (List.getElem?_eq_some_iff.mp entry).1
  rw [List.getElem?_map, entry, List.getElem?_map, List.getElem?_range inside] at counted
  have number : q = (i : Int) := Option.some.inj counted
  have before : g.inputs.get? w = some (i : Int) :=
    Table.memEntries.mp (number ▸ List.mem_of_getElem? entry)
  have after : inputs.get? o.1 = some (i : Int) := by
    refine Table.memEntries.mp ?_
    rw [numbered, List.mem_map]
    refine ⟨(o.1, i), List.mk_mem_zipIdx_iff_getElem?.mpr ?_, rfl⟩
    rw [List.getElem?_map, new]
    rfl
  rw [after, before]

theorem memReplaced : (v, chain) ∈ replaced ns out ↔ ∃ w, (v, w, some chain) ∈ ns.zip out := by
  rw [replaced, List.mem_filterMap]
  constructor
  · rintro ⟨⟨n, w, x⟩, mem, made⟩
    obtain ⟨c, rfl, same⟩ := Option.map_eq_some_iff.mp made
    cases same
    exact ⟨w, mem⟩
  · rintro ⟨w, mem⟩
    exact ⟨_, mem, rfl⟩

theorem inputsHanded {inputs : Table Int} (roles : g.Roles) (length : out.length = g.inputs.size)
    (numbered : inputs.entries = (out.map Prod.fst).zipIdx.map fun e => (e.1, (e.2 : Int)))
    (handed : ∀ v o, (v, o) ∈ g.inputs.keys.zip out → g.HandsOver v o)
    (listed : ∀ v, v ∈ (replaced g.inputs.keys out).map Prod.fst ↔ v ∈ g.inputs.keys ∧ v ∈ g.cliffords.keys)
    (q w : Int) : inputs.get? w = some q ↔ ∃ v, g.inputs.get? v = some q ∧ (g.cliffords.get? v = none ∧ w = v ∨
      ∃ chain, (v, chain) ∈ replaced g.inputs.keys out ∧ w = chain.first) := by
  have size : out.length = g.inputs.keys.length := by rw [length, Table.keys, List.length_map, Table.size]
  have before : (g.inputs.keys.zip out).map Prod.fst = g.inputs.keys := List.map_fst_zip size.ge
  have after : (g.inputs.keys.zip out).map (Prod.fst ∘ Prod.snd) = inputs.keys := by
    rw [← List.map_map, List.map_snd_zip size.le, Table.keys, numbered, List.map_map]
    exact (List.zipIdx_map_fst _ _).symm
  have takes (v : Int) (o : Int × Option Chain) (mem : (v, o) ∈ g.inputs.keys.zip out) :
      inputs.get? o.1 = g.inputs.get? v := by
    refine roles.takesOver numbered ?_
    rw [byValueCounted roles]
    exact mem
  constructor
  · intro input
    have key := Table.memKeys.mpr ⟨q, input⟩
    rw [← after, List.mem_map] at key
    obtain ⟨⟨v, w, x⟩, mem, rfl⟩ := key
    refine ⟨v, (takes _ _ mem).symm.trans input, ?_⟩
    rcases handed _ _ mem with ⟨free, plain⟩ | ⟨chain, same⟩
    · exact .inl ⟨free, congrArg Prod.fst plain⟩
    · cases same
      exact .inr ⟨chain, memReplaced.mpr ⟨_, mem⟩, rfl⟩
  · rintro ⟨v, input, ⟨free, rfl⟩ | ⟨chain, made, rfl⟩⟩
    · have key := Table.memKeys.mpr ⟨q, input⟩
      rw [← before, List.mem_map] at key
      obtain ⟨⟨v, w, x⟩, mem, rfl⟩ := key
      rw [← input, ← takes _ _ mem]
      rcases handed _ _ mem with ⟨_, plain⟩ | ⟨chain, same⟩
      · cases plain
        rfl
      · cases same
        have listed := (listed v).mp (List.mem_map.mpr ⟨_, memReplaced.mpr ⟨_, mem⟩, rfl⟩)
        exact absurd listed.2 (Table.getNone.mp free)
    · obtain ⟨w, mem⟩ := memReplaced.mp made
      rcases handed _ _ mem with ⟨_, plain⟩ | ⟨chain', same⟩
      · cases plain
      · cases same
        exact (takes _ _ mem).trans input

theorem inputsAttached (sound : g.Sound) (roles : g.Roles) : ∃ made left,
    expandInputs.apply g = (.ok made, left) ∧ Attached g g.inputs.keys made left ∧
    ∀ q w, left.inputs.get? w = some q ↔ ∃ v, g.inputs.get? v = some q ∧
      (g.cliffords.get? v = none ∧ w = v ∨ ∃ chain, (v, chain) ∈ made ∧ w = chain.first) := by
  obtain ⟨out, mid, inputs, each, ran, numbered, size, _⟩ := expandInputsRun sound
  have order : g.inputs.byValue.map Prod.fst = g.inputs.keys := by rw [byValueCounted roles, Table.keys]
  rw [order] at each ran
  obtain ⟨attached, handed⟩ := expandEachAttached sound g.inputs.distinct sound.inputsThere each
  have length : out.length = g.inputs.size := by
    rw [← size, Table.size, numbered, List.length_map, List.length_zipIdx, List.length_map]
  exact ⟨_, _, ran, attached.renewed inputs, inputsHanded roles length numbered handed attached.listed⟩

/- Expanding the Cliffords on inputs returns whatever they are. It lists every input on which one waited with
the chain that is now in front of it, and attaches nothing else. A logical qubit enters at the node where it
did before if no Clifford waited there, and else at the first node of the chain; the Cliffords on inputs are
gone and all others are left. -/
theorem expandInputsAttaches (reach : g.Reachable) : ∃ made left, expandInputs.apply g = (.ok made, left) ∧
    Attached g g.inputs.keys made left ∧
    (∀ a ∈ g.nodes, ∀ b ∈ g.nodes, b ∈ left.adjacent a ↔ b ∈ g.adjacent a) ∧
    ∀ q w, left.inputs.get? w = some q ↔ ∃ v, g.inputs.get? v = some q ∧
      (g.cliffords.get? v = none ∧ w = v ∨ ∃ chain, (v, chain) ∈ made ∧ w = chain.first) := by
  obtain ⟨made, left, ran, attached, inputs⟩ := inputsAttached (reachableSound reach) (reachableRoles reach)
  refine ⟨made, left, ran, attached, fun a hereA b hereB => ?_, inputs⟩
  exact attached.edgesKept hereA hereB

noncomputable def rails : Graph ℝ :=
  after [.addNode, .addNode, .addNode, .addNode, .addEdge 0 1, .addEdge 2 3, .registerInput 0, .registerInput 2,
    .registerOutput 1 0, .registerOutput 3 1, .applyClifford 0 .still, .applyClifford 3 .still]

theorem railsAttached : rails.Reachable ∧ rails.inputs.keys = [0, 2] ∧ rails.cliffords.keys = [0, 3] ∧
    ∃ made left, expandInputs.apply rails = (.ok made, left) ∧ (∀ v, v ∈ made.map Prod.fst ↔ v = 0) ∧
      left.inputs.get? 2 = some 1 ∧ left.cliffords.get? 0 = none ∧ left.cliffords.get? 3 = some .still := by
  have reach : rails.Reachable := ⟨_, rfl⟩
  obtain ⟨made, left, ran, attached, _, inputs⟩ := expandInputsAttaches reach
  refine ⟨reach, rfl, rfl, made, left, ran, fun v => ?_, (inputs 1 2).mpr ⟨2, rfl, .inl ⟨rfl, rfl⟩⟩, ?_, ?_⟩
  · rw [attached.listed, show rails.inputs.keys = [0, 2] from rfl, show rails.cliffords.keys = [0, 3] from rfl]
    simp only [List.mem_cons, List.not_mem_nil, or_false]
    omega
  · exact (attached.cliffords 0).trans (if_pos (by decide))
  · exact (attached.cliffords 3).trans (if_neg (by decide))

end Graph
end OneWay
