import Mathlib.Data.Set.Function
import OneWay.Proofs.Joining
import OneWay.Proofs.Transition

/-! Three graphs one after the other. However they are bracketed, the whole is made of the same parts: the
measured nodes of the first two and all nodes of the third, with outputs where the inputs with their qubits
are. Both bracketings are refused in the same cases, since an edge of the first graph and one of the third
can meet only through qubits that the second hands on. -/
namespace OneWay

theorem Table.getMapped {t s : Table Int} {f : Int → Int}
    (entries : t.entries = s.entries.map fun e => (f e.1, e.2)) {v q : Int} :
    t.get? v = some q ↔ ∃ n, s.get? n = some q ∧ f n = v := by
  rw [← memEntries, entries, List.mem_map]
  constructor
  · rintro ⟨⟨n, _⟩, mem, eq⟩
    cases eq
    exact ⟨n, memEntries.mp mem, rfl⟩
  · rintro ⟨n, found, rfl⟩
    exact ⟨(n, q), memEntries.mpr found, rfl⟩

namespace Graph
variable {R : Type} [Scalar R] {g1 g2 g3 g h whole other : Graph R} {c d e f : Composition R} {a b n q v : Int}

namespace Joined
variable (joined : Joined g1 g2 c)
include joined

theorem memInner (sound : g2.Sound) : v ∈ c.graph.innerNodes ↔
    (∃ n ∈ g1.innerNodes, named c.first n = v) ∨ ∃ n ∈ g2.innerNodes, named c.second n = v := by
  have split := Finset.ext_iff.mp (joined.innerSplit sound) v
  simpa only [Graph.memInner, Finset.mem_union, Finset.mem_image] using split

theorem inputAt : c.graph.inputs.get? v = some q ↔ ∃ n, g1.inputs.get? n = some q ∧ named c.first n = v :=
  Table.getMapped joined.inputs

theorem outputAt : c.graph.outputs.get? v = some q ↔
    ∃ n, g2.outputs.get? n = some q ∧ named c.second n = v :=
  Table.getMapped joined.outputs

theorem shared (sound : g2.Sound) (node : a ∈ g1.nodes) (node' : b ∈ g2.nodes)
    (same : named c.first a = named c.second b) :
    ∃ q, g1.outputs.get? a = some q ∧ g2.inputs.get? b = some q := by
  by_cases output : a ∈ g1.outputs.keys
  · obtain ⟨q, found⟩ := Table.memKeys.mp output
    obtain ⟨i, input, meet⟩ := joined.meet a q found
    have there := sound.inputsThere i (Table.memKeys.mpr ⟨q, input⟩)
    cases joined.secondApart i there b (node') (meet.symm.trans same)
    exact ⟨q, found, input⟩
  · exact absurd same (joined.apart a (memInnerNodes.mpr ⟨node, output⟩) b (node'))

theorem firstNames (sound : g2.Sound) (roles : g1.Roles) (node : a ∈ g1.nodes)
    (node' : b ∈ g1.nodes) (same : named c.first a = named c.first b) : a = b := by
  have output {a b : Int} (node : a ∈ g1.nodes) (output : b ∈ g1.outputs.keys)
      (same : named c.first a = named c.first b) : a = b := by
    obtain ⟨q, found⟩ := Table.memKeys.mp output
    obtain ⟨i, input, meet⟩ := joined.meet b q found
    have there := sound.inputsThere i (Table.memKeys.mpr ⟨q, input⟩)
    obtain ⟨r, found', input'⟩ := joined.shared sound node there (same.trans meet)
    cases input.symm.trans input'
    exact Table.sameKey roles.outputsOnce found' found
  by_cases left : a ∈ g1.outputs.keys
  · exact (output node' left same.symm).symm
  · by_cases right : b ∈ g1.outputs.keys
    · exact output node right same
    · exact joined.firstApart a (memInnerNodes.mpr ⟨node, left⟩) b (memInnerNodes.mpr ⟨node', right⟩) same

end Joined

inductive Part where
  | first
  | second
  | third

namespace Part

def of {α : Type} (x y z : α) : Part → α
  | first => x
  | second => y
  | third => z

theorem someIff {P : Part → Prop} : (∃ i, P i) ↔ P first ∨ P second ∨ P third := by
  constructor
  · rintro ⟨i, holds⟩
    cases i with
    | first => exact .inl holds
    | second => exact .inr (.inl holds)
    | third => exact .inr (.inr holds)
  · rintro (holds | holds | holds)
    · exact ⟨first, holds⟩
    · exact ⟨second, holds⟩
    · exact ⟨third, holds⟩

end Part

def brought (g1 g2 g3 : Graph R) : Part → NodeSet := Part.of g1.innerNodes g2.innerNodes g3.nodes

structure Chained (g1 g2 g3 whole : Graph R) (name : Part → Int → Int) : Prop where
  keys : ∀ v, v ∈ whole.nodes ↔ ∃ i, ∃ n ∈ brought g1 g2 g3 i, name i n = v
  apart : ∀ i j, ∀ n ∈ brought g1 g2 g3 i, ∀ m ∈ brought g1 g2 g3 j, name i n = name j m → i = j ∧ n = m
  adjacent : ∀ x y, y ∈ whole.adjacent x ↔
    ∃ i a b, b ∈ (Part.of g1 g2 g3 i).adjacent a ∧ name i a = x ∧ name i b = y
  bases : ∀ i, ∀ n ∈ brought g1 g2 g3 i,
    whole.bases.get? (name i n) = (Part.of g1 g2 g3 i).bases.get? n
  inputs : ∀ v q, whole.inputs.get? v = some q ↔ ∃ n, g1.inputs.get? n = some q ∧ name .first n = v
  outputs : ∀ v q, whole.outputs.get? v = some q ↔ ∃ n, g3.outputs.get? n = some q ∧ name .third n = v
  firstMeets : ∀ o i q, g1.outputs.get? o = some q → g2.inputs.get? i = some q →
    name .first o = name .second i
  secondMeets : ∀ o i q, g2.outputs.get? o = some q → g3.inputs.get? i = some q →
    name .second o = name .third i

theorem chainedLeft (sound1 : g1.Sound) (sound2 : g2.Sound) (sound3 : g3.Sound) (sound12 : c.graph.Sound)
    (sound : e.graph.Sound) (roles2 : g2.Roles) (roles3 : g3.Roles) (joined : Joined g1 g2 c)
    (joined' : Joined c.graph g3 e) :
    Chained g1 g2 g3 e.graph (Part.of (fun n => named e.first (named c.first n))
      (fun n => named e.first (named c.second n)) (named e.second)) := by
  have inner1 {n : Int} (inner : n ∈ g1.innerNodes) : named c.first n ∈ c.graph.innerNodes :=
    (joined.memInner sound2).mpr (.inl ⟨n, inner, rfl⟩)
  have inner2 {n : Int} (inner : n ∈ g2.innerNodes) : named c.second n ∈ c.graph.innerNodes :=
    (joined.memInner sound2).mpr (.inr ⟨n, inner, rfl⟩)
  have node2 {n : Int} (inner : n ∈ g2.innerNodes) : n ∈ g2.nodes := (memInnerNodes.mp inner).1
  refine ⟨fun v => ?_, fun i j n mem m mem' same => ?_, fun x y => ?_, fun i n mem => ?_, fun v q => ?_,
    fun v q => joined'.outputAt, fun o i q output input => ?_, fun o i q output input => ?_⟩
  · rw [joined'.keys, Part.someIff, ← or_assoc]
    refine or_congr_left ⟨?_, ?_⟩
    · rintro ⟨m, inner, rfl⟩
      rcases (joined.memInner sound2).mp inner with ⟨n, own, rfl⟩ | ⟨n, own, rfl⟩
      · exact .inl ⟨n, own, rfl⟩
      · exact .inr ⟨n, own, rfl⟩
    · rintro (⟨n, inner, rfl⟩ | ⟨n, inner, rfl⟩)
      · exact ⟨_, inner1 inner, rfl⟩
      · exact ⟨_, inner2 inner, rfl⟩
  · cases i with
    | first =>
      cases j with
      | first =>
        exact ⟨rfl, joined.firstApart n mem m mem' (joined'.firstApart _ (inner1 mem) _ (inner1 mem') same)⟩
      | second =>
        exact absurd (joined'.firstApart _ (inner1 mem) _ (inner2 mem') same)
          (joined.apart n mem m (node2 mem'))
      | third => exact absurd same (joined'.apart _ (inner1 mem) m mem')
    | second =>
      cases j with
      | first =>
        exact absurd (joined'.firstApart _ (inner1 mem') _ (inner2 mem) same.symm)
          (joined.apart m mem' n (node2 mem))
      | second =>
        exact ⟨rfl, joined.secondApart n (node2 mem) m (node2 mem')
          (joined'.firstApart _ (inner2 mem) _ (inner2 mem') same)⟩
      | third => exact absurd same (joined'.apart _ (inner2 mem) m mem')
    | third =>
      cases j with
      | first => exact absurd same.symm (joined'.apart _ (inner1 mem') n mem)
      | second => exact absurd same.symm (joined'.apart _ (inner2 mem') n mem)
      | third => exact ⟨rfl, joined'.secondApart n mem m mem' same⟩
  · rw [joined'.adjacent sound12 sound3 sound, Part.someIff, ← or_assoc]
    refine or_congr_left ⟨?_, ?_⟩
    · rintro ⟨_, _, near, rfl, rfl⟩
      rcases (joined.adjacent sound1 sound2 sound12).mp near with ⟨a, b, own, rfl, rfl⟩ | ⟨a, b, own, rfl, rfl⟩
      · exact .inl ⟨a, b, own, rfl, rfl⟩
      · exact .inr ⟨a, b, own, rfl, rfl⟩
    · rintro (⟨a, b, near, rfl, rfl⟩ | ⟨a, b, near, rfl, rfl⟩)
      · exact ⟨_, _, (joined.adjacent sound1 sound2 sound12).mpr (.inl ⟨a, b, near, rfl, rfl⟩), rfl, rfl⟩
      · exact ⟨_, _, (joined.adjacent sound1 sound2 sound12).mpr (.inr ⟨a, b, near, rfl, rfl⟩), rfl, rfl⟩
  · cases i with
    | first => exact (joined'.firstBases _ (inner1 mem)).trans (joined.firstBases n mem)
    | second => exact (joined'.firstBases _ (inner2 mem)).trans (joined.secondBases n (node2 mem))
    | third => exact joined'.secondBases n mem
  · rw [joined'.inputAt]
    constructor
    · rintro ⟨m, input, rfl⟩
      obtain ⟨n, own, rfl⟩ := joined.inputAt.mp input
      exact ⟨n, own, rfl⟩
    · rintro ⟨n, input, rfl⟩
      exact ⟨_, joined.inputAt.mpr ⟨n, input, rfl⟩, rfl⟩
  · exact congrArg (named e.first) (joined.meetAt roles2 output input)
  · exact joined'.meetAt roles3 (joined.outputAt.mpr ⟨o, output, rfl⟩) input

theorem chainedRight (sound1 : g1.Sound) (sound2 : g2.Sound) (sound3 : g3.Sound) (sound23 : d.graph.Sound)
    (sound : f.graph.Sound) (roles3 : g3.Roles) (roles23 : d.graph.Roles) (joined : Joined g2 g3 d)
    (joined' : Joined g1 d.graph f) :
    Chained g1 g2 g3 f.graph (Part.of (named f.first) (fun n => named f.second (named d.first n))
      (fun n => named f.second (named d.second n))) := by
  have node2 {n : Int} (inner : n ∈ g2.innerNodes) : named d.first n ∈ d.graph.nodes :=
    ((joined.keys _).mpr (.inl ⟨n, inner, rfl⟩))
  have node3 {n : Int} (node : n ∈ g3.nodes) : named d.second n ∈ d.graph.nodes :=
    ((joined.keys _).mpr (.inr ⟨n, node, rfl⟩))
  refine ⟨fun v => ?_, fun i j n mem m mem' same => ?_, fun x y => ?_, fun i n mem => ?_,
    fun v q => joined'.inputAt, fun v q => ?_, fun o i q output input => ?_, fun o i q output input => ?_⟩
  · rw [joined'.keys, Part.someIff]
    refine or_congr_right ⟨?_, ?_⟩
    · rintro ⟨m, node, rfl⟩
      rcases (joined.keys m).mp node with ⟨n, own, rfl⟩ | ⟨n, own, rfl⟩
      · exact .inl ⟨n, own, rfl⟩
      · exact .inr ⟨n, own, rfl⟩
    · rintro (⟨n, inner, rfl⟩ | ⟨n, node, rfl⟩)
      · exact ⟨_, node2 inner, rfl⟩
      · exact ⟨_, node3 node, rfl⟩
  · cases i with
    | first =>
      cases j with
      | first => exact ⟨rfl, joined'.firstApart n mem m mem' same⟩
      | second => exact absurd same (joined'.apart n mem _ (node2 mem'))
      | third => exact absurd same (joined'.apart n mem _ (node3 mem'))
    | second =>
      cases j with
      | first => exact absurd same.symm (joined'.apart m mem' _ (node2 mem))
      | second =>
        exact ⟨rfl, joined.firstApart n mem m mem' (joined'.secondApart _ (node2 mem) _ (node2 mem') same)⟩
      | third =>
        exact absurd (joined'.secondApart _ (node2 mem) _ (node3 mem') same) (joined.apart n mem m mem')
    | third =>
      cases j with
      | first => exact absurd same.symm (joined'.apart m mem' _ (node3 mem))
      | second =>
        exact absurd (joined'.secondApart _ (node2 mem') _ (node3 mem) same.symm) (joined.apart m mem' n mem)
      | third =>
        exact ⟨rfl, joined.secondApart n mem m mem' (joined'.secondApart _ (node3 mem) _ (node3 mem') same)⟩
  · rw [joined'.adjacent sound1 sound23 sound, Part.someIff]
    refine or_congr_right ⟨?_, ?_⟩
    · rintro ⟨_, _, near, rfl, rfl⟩
      rcases (joined.adjacent sound2 sound3 sound23).mp near with ⟨a, b, own, rfl, rfl⟩ | ⟨a, b, own, rfl, rfl⟩
      · exact .inl ⟨a, b, own, rfl, rfl⟩
      · exact .inr ⟨a, b, own, rfl, rfl⟩
    · rintro (⟨a, b, near, rfl, rfl⟩ | ⟨a, b, near, rfl, rfl⟩)
      · exact ⟨_, _, (joined.adjacent sound2 sound3 sound23).mpr (.inl ⟨a, b, near, rfl, rfl⟩), rfl, rfl⟩
      · exact ⟨_, _, (joined.adjacent sound2 sound3 sound23).mpr (.inr ⟨a, b, near, rfl, rfl⟩), rfl, rfl⟩
  · cases i with
    | first => exact joined'.firstBases n mem
    | second => exact (joined'.secondBases _ (node2 mem)).trans (joined.firstBases n mem)
    | third => exact (joined'.secondBases _ (node3 mem)).trans (joined.secondBases n mem)
  · rw [joined'.outputAt]
    constructor
    · rintro ⟨m, output, rfl⟩
      obtain ⟨n, own, rfl⟩ := joined.outputAt.mp output
      exact ⟨n, own, rfl⟩
    · rintro ⟨n, output, rfl⟩
      exact ⟨_, joined.outputAt.mpr ⟨n, output, rfl⟩, rfl⟩
  · exact joined'.meetAt roles23 output (joined.inputAt.mpr ⟨i, input, rfl⟩)
  · exact congrArg (named f.second) (joined.meetAt roles3 output input)

structure Isomorphism (g h : Graph R) (φ : Int → Int) : Prop where
  onto : Set.BijOn φ {n | n ∈ g.nodes} {n | n ∈ h.nodes}
  adjacent : ∀ a ∈ g.nodes, ∀ b ∈ g.nodes, φ b ∈ h.adjacent (φ a) ↔ b ∈ g.adjacent a
  bases : ∀ n ∈ g.nodes, h.bases.get? (φ n) = g.bases.get? n
  inputs : ∀ n ∈ g.nodes, h.inputs.get? (φ n) = g.inputs.get? n
  outputs : ∀ n ∈ g.nodes, h.outputs.get? (φ n) = g.outputs.get? n

namespace Chained
variable {name name' : Part → Int → Int} (left : Chained g1 g2 g3 whole name)
  (right : Chained g1 g2 g3 other name')
include left right

theorem home (qubits12 : ∀ q, q ∈ g1.outputs.values ↔ q ∈ g2.inputs.values)
    (qubits23 : ∀ q, q ∈ g2.outputs.values ↔ q ∈ g3.inputs.values) (sound2 : g2.Sound) (sound3 : g3.Sound)
    (i : Part) (node : n ∈ (Part.of g1 g2 g3 i).nodes) :
    ∃ j, ∃ m ∈ brought g1 g2 g3 j, name i n = name j m ∧ name' i n = name' j m := by
  have third {n : Int} (node : n ∈ g3.nodes) :
      ∃ j, ∃ m ∈ brought g1 g2 g3 j, name .third n = name j m ∧ name' .third n = name' j m :=
    ⟨.third, n, node, rfl, rfl⟩
  have second {n : Int} (node : n ∈ g2.nodes) :
      ∃ j, ∃ m ∈ brought g1 g2 g3 j, name .second n = name j m ∧ name' .second n = name' j m := by
    by_cases output : n ∈ g2.outputs.keys
    · obtain ⟨q, found⟩ := Table.memKeys.mp output
      obtain ⟨k, input⟩ := Table.memValues.mp ((qubits23 q).mp (Table.memValues.mpr ⟨n, found⟩))
      rw [left.secondMeets n k q found input, right.secondMeets n k q found input]
      exact third (sound3.inputsThere k (Table.memKeys.mpr ⟨q, input⟩))
    · exact ⟨.second, n, memInnerNodes.mpr ⟨node, output⟩, rfl, rfl⟩
  cases i with
  | first =>
    by_cases output : n ∈ g1.outputs.keys
    · obtain ⟨q, found⟩ := Table.memKeys.mp output
      obtain ⟨k, input⟩ := Table.memValues.mp ((qubits12 q).mp (Table.memValues.mpr ⟨n, found⟩))
      rw [left.firstMeets n k q found input, right.firstMeets n k q found input]
      exact second (sound2.inputsThere k (Table.memKeys.mpr ⟨q, input⟩))
    · exact ⟨.first, n, memInnerNodes.mpr ⟨node, output⟩, rfl, rfl⟩
  | second => exact second node
  | third => exact third node

theorem isomorphism (qubits12 : ∀ q, q ∈ g1.outputs.values ↔ q ∈ g2.inputs.values)
    (qubits23 : ∀ q, q ∈ g2.outputs.values ↔ q ∈ g3.inputs.values) (sound1 : g1.Sound) (sound2 : g2.Sound)
    (sound3 : g3.Sound) : ∃ φ, Isomorphism whole other φ := by
  obtain ⟨φ, brings⟩ : ∃ φ : Int → Int, ∀ i, ∀ n ∈ brought g1 g2 g3 i, φ (name i n) = name' i n := by
    have different : Function.Injective fun p : {p : Part × Int // p.2 ∈ brought g1 g2 g3 p.1} =>
        name p.1.1 p.1.2 := by
      rintro ⟨⟨i, n⟩, mem⟩ ⟨⟨j, m⟩, mem'⟩ same
      obtain ⟨rfl, rfl⟩ := left.apart i j n mem m mem' same
      rfl
    exact ⟨_, fun i n mem => different.extend_apply (fun p => name' p.1.1 p.1.2) id ⟨(i, n), mem⟩⟩
  have each (i : Part) {n : Int} (node : n ∈ (Part.of g1 g2 g3 i).nodes) :
      φ (name i n) = name' i n := by
    obtain ⟨j, m, mem, here, there⟩ := left.home right qubits12 qubits23 sound2 sound3 i node
    rw [here, there, brings j m mem]
  have there (i : Part) {n : Int} (node : n ∈ (Part.of g1 g2 g3 i).nodes) :
      name i n ∈ whole.nodes := by
    obtain ⟨j, m, mem, here, _⟩ := left.home right qubits12 qubits23 sound2 sound3 i node
    exact (left.keys _).mpr ⟨j, m, mem, here.symm⟩
  have injective : Set.InjOn φ {n | n ∈ whole.nodes} := by
    intro u mem v mem' same
    obtain ⟨i, n, own, rfl⟩ := (left.keys u).mp mem
    obtain ⟨j, m, own', rfl⟩ := (left.keys v).mp (mem')
    rw [brings i n own, brings j m own'] at same
    obtain ⟨rfl, rfl⟩ := right.apart i j n own m own' same
    rfl
  -- What looks up names of nodes of one part looks up the same in both graphs.
  have lookup (i : Part) {t s s' : Table Int} (known : ∀ n ∈ t.keys, n ∈ (Part.of g1 g2 g3 i).nodes)
      (get : ∀ v q, s.get? v = some q ↔ ∃ n, t.get? n = some q ∧ name i n = v)
      (get' : ∀ v q, s'.get? v = some q ↔ ∃ n, t.get? n = some q ∧ name' i n = v) {v : Int}
      (mem : v ∈ whole.nodes) : s'.get? (φ v) = s.get? v := by
    refine Option.ext fun q => ?_
    rw [get, get']
    refine exists_congr fun n => and_congr_right fun found => ?_
    have node := known n (Table.memKeys.mpr ⟨q, found⟩)
    rw [← each i node]
    exact ⟨fun same => injective (there i node) mem same, congrArg φ⟩
  have sound (i : Part) : (Part.of g1 g2 g3 i).Sound := by
    cases i with
    | first => exact sound1
    | second => exact sound2
    | third => exact sound3
  refine ⟨φ, ⟨?_, injective, ?_⟩, fun u mem v mem' => ?_, fun v mem => ?_, fun v mem => ?_, fun v mem => ?_⟩
  · intro v mem
    obtain ⟨i, n, own, rfl⟩ := (left.keys v).mp mem
    exact (right.keys _).mpr ⟨i, n, own, (brings i n own).symm⟩
  · intro v mem
    obtain ⟨i, n, own, rfl⟩ := (right.keys v).mp mem
    exact ⟨name i n, (left.keys _).mpr ⟨i, n, own, rfl⟩, brings i n own⟩
  · rw [left.adjacent, right.adjacent]
    refine exists_congr fun i => exists_congr fun x => exists_congr fun y => and_congr_right fun near => ?_
    have node := (sound i).ownerThere near
    have node' := (sound i).neighborThere near
    rw [← each i node, ← each i node']
    exact and_congr ⟨fun same => injective (there i node) mem same, congrArg φ⟩
      ⟨fun same => injective (there i node') mem' same, congrArg φ⟩
  · obtain ⟨i, n, own, rfl⟩ := (left.keys v).mp mem
    rw [brings i n own, right.bases i n own, left.bases i n own]
  · exact lookup .first sound1.inputsThere left.inputs right.inputs mem
  · exact lookup .third sound3.outputsThere left.outputs right.outputs mem

end Chained

def ClashThrough (g1 g2 g3 : Graph R) : Prop :=
  ∃ a b m n i j q r s t, b ∈ g1.adjacent a ∧ g1.outputs.get? a = some q ∧ g1.outputs.get? b = some r ∧
    g2.inputs.get? m = some q ∧ g2.inputs.get? n = some r ∧
    g2.outputs.get? m = some s ∧ g2.outputs.get? n = some t ∧
    j ∈ g3.adjacent i ∧ g3.inputs.get? i = some s ∧ g3.inputs.get? j = some t

namespace Joined

theorem clashAfter (sound1 : g1.Sound) (sound2 : g2.Sound) (sound12 : c.graph.Sound) (roles2 : g2.Roles)
    (joined : Joined g1 g2 c) : Clash c.graph g3 ↔ Clash g2 g3 ∨ ClashThrough g1 g2 g3 := by
  have node {o q : Int} (output : g2.outputs.get? o = some q) : o ∈ g2.nodes :=
    sound2.outputsThere o (Table.memKeys.mpr ⟨q, output⟩)
  have same {o o' q : Int} (there : o ∈ g2.nodes) (output : g2.outputs.get? o' = some q)
      (eq : named c.second o = named c.second o') : o = o' :=
    joined.secondApart o there o' (node output) eq
  constructor
  · rintro ⟨_, _, i, j, s, t, near, outputX, outputY, near3, inputI, inputJ⟩
    obtain ⟨m, outputM, rfl⟩ := joined.outputAt.mp outputX
    obtain ⟨n, outputN, rfl⟩ := joined.outputAt.mp outputY
    rcases (joined.adjacent sound1 sound2 sound12).mp near with ⟨a, b, near, eqA, eqB⟩ | ⟨a, b, near, eqA, eqB⟩
    · obtain ⟨q, outputA, inputM⟩ := joined.shared sound2 (sound1.ownerThere near) (node outputM) eqA
      obtain ⟨r, outputB, inputN⟩ := joined.shared sound2 (sound1.neighborThere near) (node outputN) eqB
      exact .inr ⟨a, b, m, n, i, j, q, r, s, t, near, outputA, outputB, inputM, inputN, outputM, outputN,
        near3, inputI, inputJ⟩
    · cases same (sound2.ownerThere near) outputM eqA
      cases same (sound2.neighborThere near) outputN eqB
      exact .inl ⟨_, _, i, j, s, t, near, outputM, outputN, near3, inputI, inputJ⟩
  · rintro (⟨m, n, i, j, s, t, near, outputM, outputN, near3, inputI, inputJ⟩ |
      ⟨a, b, m, n, i, j, q, r, s, t, near, outputA, outputB, inputM, inputN, outputM, outputN, near3, inputI,
        inputJ⟩)
    · exact ⟨_, _, i, j, s, t, (joined.adjacent sound1 sound2 sound12).mpr (.inr ⟨m, n, near, rfl, rfl⟩),
        joined.outputAt.mpr ⟨m, outputM, rfl⟩, joined.outputAt.mpr ⟨n, outputN, rfl⟩, near3, inputI, inputJ⟩
    · refine ⟨_, _, i, j, s, t, (joined.adjacent sound1 sound2 sound12).mpr (.inl ⟨a, b, near, rfl, rfl⟩),
        joined.outputAt.mpr ⟨m, outputM, ?_⟩, joined.outputAt.mpr ⟨n, outputN, ?_⟩, near3, inputI, inputJ⟩
      · exact (joined.meetAt roles2 outputA inputM).symm
      · exact (joined.meetAt roles2 outputB inputN).symm

theorem clashBefore (sound2 : g2.Sound) (sound3 : g3.Sound) (sound23 : d.graph.Sound) (roles2 : g2.Roles)
    (roles3 : g3.Roles) (joined : Joined g2 g3 d) :
    Clash g1 d.graph ↔ Clash g1 g2 ∨ ClashThrough g1 g2 g3 := by
  have node {i q : Int} (input : g2.inputs.get? i = some q) : i ∈ g2.nodes :=
    sound2.inputsThere i (Table.memKeys.mpr ⟨q, input⟩)
  constructor
  · rintro ⟨a, b, _, _, q, r, near1, outputA, outputB, near, inputX, inputY⟩
    obtain ⟨m, inputM, rfl⟩ := joined.inputAt.mp inputX
    obtain ⟨n, inputN, rfl⟩ := joined.inputAt.mp inputY
    rcases (joined.adjacent sound2 sound3 sound23).mp near with ⟨i, j, near, eqI, eqJ⟩ | ⟨i, j, near, eqI, eqJ⟩
    · cases joined.firstNames sound3 roles2 (sound2.ownerThere near) (node inputM) eqI
      cases joined.firstNames sound3 roles2 (sound2.neighborThere near) (node inputN) eqJ
      exact .inl ⟨a, b, _, _, q, r, near1, outputA, outputB, near, inputM, inputN⟩
    · obtain ⟨s, outputM, inputI⟩ := joined.shared sound3 (node inputM) (sound3.ownerThere near) eqI.symm
      obtain ⟨t, outputN, inputJ⟩ := joined.shared sound3 (node inputN) (sound3.neighborThere near) eqJ.symm
      exact .inr ⟨a, b, m, n, i, j, q, r, s, t, near1, outputA, outputB, inputM, inputN, outputM, outputN,
        near, inputI, inputJ⟩
  · rintro (⟨a, b, m, n, q, r, near1, outputA, outputB, near, inputM, inputN⟩ |
      ⟨a, b, m, n, i, j, q, r, s, t, near1, outputA, outputB, inputM, inputN, outputM, outputN, near, inputI,
        inputJ⟩)
    · exact ⟨a, b, _, _, q, r, near1, outputA, outputB,
        (joined.adjacent sound2 sound3 sound23).mpr (.inl ⟨m, n, near, rfl, rfl⟩),
        joined.inputAt.mpr ⟨m, inputM, rfl⟩, joined.inputAt.mpr ⟨n, inputN, rfl⟩⟩
    · refine ⟨a, b, _, _, q, r, near1, outputA, outputB,
        (joined.adjacent sound2 sound3 sound23).mpr (.inr ⟨i, j, near, rfl, rfl⟩),
        joined.inputAt.mpr ⟨m, inputM, ?_⟩, joined.inputAt.mpr ⟨n, inputN, ?_⟩⟩
      · exact joined.meetAt roles3 outputM inputI
      · exact joined.meetAt roles3 outputN inputJ

end Joined

def bracketLeft (g1 g2 g3 : Graph R) : Except Fault (Graph R) := do
  let c ← g1.sequential g2
  let e ← c.graph.sequential g3
  return e.graph

def bracketRight (g1 g2 g3 : Graph R) : Except Fault (Graph R) := do
  let d ← g2.sequential g3
  let f ← g1.sequential d.graph
  return f.graph

theorem bracketLeftOk : bracketLeft g1 g2 g3 = .ok whole ↔
    ∃ c e, g1.sequential g2 = .ok c ∧ c.graph.sequential g3 = .ok e ∧ e.graph = whole := by
  simp only [bracketLeft, Result.bindOk, Result.pureOk, exists_and_left]

theorem bracketRightOk : bracketRight g1 g2 g3 = .ok whole ↔
    ∃ d f, g2.sequential g3 = .ok d ∧ g1.sequential d.graph = .ok f ∧ f.graph = whole := by
  simp only [bracketRight, Result.bindOk, Result.pureOk, exists_and_left]

structure Chainable (g1 g2 g3 : Graph R) : Prop where
  canonical1 : g1.isCanonical = true
  canonical2 : g2.isCanonical = true
  canonical3 : g3.isCanonical = true
  qubits12 : ∀ q, q ∈ g1.outputs.values ↔ q ∈ g2.inputs.values
  qubits23 : ∀ q, q ∈ g2.outputs.values ↔ q ∈ g3.inputs.values
  clear12 : ¬ Clash g1 g2
  clear23 : ¬ Clash g2 g3
  clearThrough : ¬ ClashThrough g1 g2 g3

section
variable (reach1 : g1.Reachable) (reach2 : g2.Reachable) (reach3 : g3.Reachable)
include reach1 reach2 reach3

theorem bracketLeftIff : (∃ whole, bracketLeft g1 g2 g3 = .ok whole) ↔ Chainable g1 g2 g3 := by
  have second {c : Composition R} (ok : g1.sequential g2 = .ok c) :
      (∃ e, c.graph.sequential g3 = .ok e) ↔ g3.isCanonical = true ∧
        (∀ q, q ∈ g2.outputs.values ↔ q ∈ g3.inputs.values) ∧ ¬ Clash g2 g3 ∧ ¬ ClashThrough g1 g2 g3 := by
    have reach12 := sequentialReachable ok
    obtain ⟨canonical1, canonical2, joined⟩ :=
      sequentialJoined (reachableRoles reach1) (reachableRoles reach2) ok
    have canonical := joined.canonical (reachableRoles reach1) (reachableRoles reach2) canonical1 canonical2
    have values : c.graph.outputs.values = g2.outputs.values := by
      rw [Table.values, joined.outputs, List.map_map]
      rfl
    rw [sequentialOkIff reach12 reach3, values, joined.clashAfter (reachableSound reach1)
      (reachableSound reach2) (reachableSound reach12) (reachableRoles reach2), not_or]
    exact ⟨And.right, fun given => ⟨canonical, given⟩⟩
  constructor
  · rintro ⟨whole, ok⟩
    obtain ⟨c, e, ok12, ok, _⟩ := bracketLeftOk.mp ok
    obtain ⟨canonical1, canonical2, qubits12, clear12⟩ := (sequentialOkIff reach1 reach2).mp ⟨c, ok12⟩
    obtain ⟨canonical3, qubits23, clear23, through⟩ := (second ok12).mp ⟨e, ok⟩
    exact ⟨canonical1, canonical2, canonical3, qubits12, qubits23, clear12, clear23, through⟩
  · rintro ⟨canonical1, canonical2, canonical3, qubits12, qubits23, clear12, clear23, through⟩
    obtain ⟨c, ok12⟩ := (sequentialOkIff reach1 reach2).mpr ⟨canonical1, canonical2, qubits12, clear12⟩
    obtain ⟨e, ok⟩ := (second ok12).mpr ⟨canonical3, qubits23, clear23, through⟩
    exact ⟨e.graph, bracketLeftOk.mpr ⟨c, e, ok12, ok, rfl⟩⟩

theorem bracketRightIff : (∃ whole, bracketRight g1 g2 g3 = .ok whole) ↔ Chainable g1 g2 g3 := by
  have second {d : Composition R} (ok : g2.sequential g3 = .ok d) :
      (∃ f, g1.sequential d.graph = .ok f) ↔ g1.isCanonical = true ∧
        (∀ q, q ∈ g1.outputs.values ↔ q ∈ g2.inputs.values) ∧ ¬ Clash g1 g2 ∧ ¬ ClashThrough g1 g2 g3 := by
    have reach23 := sequentialReachable ok
    obtain ⟨canonical2, canonical3, joined⟩ :=
      sequentialJoined (reachableRoles reach2) (reachableRoles reach3) ok
    have canonical := joined.canonical (reachableRoles reach2) (reachableRoles reach3) canonical2 canonical3
    have values : d.graph.inputs.values = g2.inputs.values := by
      rw [Table.values, joined.inputs, List.map_map]
      rfl
    rw [sequentialOkIff reach1 reach23, values, joined.clashBefore (reachableSound reach2)
      (reachableSound reach3) (reachableSound reach23) (reachableRoles reach2) (reachableRoles reach3), not_or]
    exact ⟨fun given => ⟨given.1, given.2.2⟩, fun given => ⟨given.1, canonical, given.2⟩⟩
  constructor
  · rintro ⟨whole, ok⟩
    obtain ⟨d, f, ok23, ok, _⟩ := bracketRightOk.mp ok
    obtain ⟨canonical2, canonical3, qubits23, clear23⟩ := (sequentialOkIff reach2 reach3).mp ⟨d, ok23⟩
    obtain ⟨canonical1, qubits12, clear12, through⟩ := (second ok23).mp ⟨f, ok⟩
    exact ⟨canonical1, canonical2, canonical3, qubits12, qubits23, clear12, clear23, through⟩
  · rintro ⟨canonical1, canonical2, canonical3, qubits12, qubits23, clear12, clear23, through⟩
    obtain ⟨d, ok23⟩ := (sequentialOkIff reach2 reach3).mpr ⟨canonical2, canonical3, qubits23, clear23⟩
    obtain ⟨f, ok⟩ := (second ok23).mpr ⟨canonical1, qubits12, clear12, through⟩
    exact ⟨f.graph, bracketRightOk.mpr ⟨d, f, ok23, ok, rfl⟩⟩

/- Joining graphs one after the other is associative: both bracketings are refused in the same cases, and
where they are not they give the same graph up to the numbers of its nodes. -/
theorem sequentialAssociative :
    ((∃ x, bracketLeft g1 g2 g3 = .error x) ↔ ∃ x, bracketRight g1 g2 g3 = .error x) ∧
      ∀ l r, bracketLeft g1 g2 g3 = .ok l → bracketRight g1 g2 g3 = .ok r → ∃ φ, Isomorphism l r φ := by
  have refused {α : Type} (x : Except Fault α) : (∃ e, x = .error e) ↔ ¬ ∃ y, x = .ok y := by
    cases x <;> simp
  refine ⟨?_, fun l r left right => ?_⟩
  · rw [refused, refused, bracketLeftIff reach1 reach2 reach3, bracketRightIff reach1 reach2 reach3]
  · obtain ⟨c, e, ok12, ok123, rfl⟩ := bracketLeftOk.mp left
    obtain ⟨d, f, ok23, ok123', rfl⟩ := bracketRightOk.mp right
    have sound1 := reachableSound reach1
    have sound2 := reachableSound reach2
    have sound3 := reachableSound reach3
    have roles1 := reachableRoles reach1
    have roles2 := reachableRoles reach2
    have roles3 := reachableRoles reach3
    have reach12 := sequentialReachable ok12
    have reach23 := sequentialReachable ok23
    obtain ⟨_, _, joined12⟩ := sequentialJoined roles1 roles2 ok12
    obtain ⟨_, _, joined23⟩ := sequentialJoined roles2 roles3 ok23
    obtain ⟨_, _, joinedLeft⟩ := sequentialJoined (reachableRoles reach12) roles3 ok123
    obtain ⟨_, _, joinedRight⟩ := sequentialJoined roles1 (reachableRoles reach23) ok123'
    have chainedL := chainedLeft sound1 sound2 sound3 (reachableSound reach12)
      (reachableSound (sequentialReachable ok123)) roles2 roles3 joined12 joinedLeft
    have chainedR := chainedRight sound1 sound2 sound3 (reachableSound reach23)
      (reachableSound (sequentialReachable ok123')) roles3 (reachableRoles reach23) joined23 joinedRight
    exact chainedL.isomorphism chainedR joined12.qubits joined23.qubits sound1 sound2 sound3

end

set_option maxRecDepth 1024

theorem crossoverRelayCrossover : crossover.Reachable ∧ relay.Reachable ∧ ∃ l r,
    bracketLeft crossover relay crossover = .ok l ∧ bracketRight crossover relay crossover = .ok r ∧
    r.edges = [(0, 4), (1, 2), (2, 3), (3, 4), (3, 5), (4, 6)] ∧ ∃ φ, Isomorphism l r φ := by
  have reach1 : crossover.Reachable := ⟨_, rfl⟩
  have reach2 : relay.Reachable := ⟨_, rfl⟩
  obtain ⟨r, right, edges⟩ : ∃ r, bracketRight crossover relay crossover = .ok r ∧
      r.edges = [(0, 4), (1, 2), (2, 3), (3, 4), (3, 5), (4, 6)] := by
    simp only [bracketRight, sequential, copyInputs, byValueCounted (reachableRoles reach1),
      byValueCounted (reachableRoles reach2)]
    exact ⟨_, rfl, by decide⟩
  obtain ⟨l, left⟩ := (bracketLeftIff reach1 reach2 reach1).mpr
    ((bracketRightIff reach1 reach2 reach1).mp ⟨r, right⟩)
  exact ⟨reach1, reach2, l, r, left, right, edges,
    (sequentialAssociative reach1 reach2 reach1).2 l r left right⟩

end Graph
end OneWay
