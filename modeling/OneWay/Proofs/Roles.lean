import Mathlib.Data.List.Perm.Basic
import OneWay.Proofs.Reachable

/-! The roles of nodes in the graphs that operations lead to. Inputs are numbered in the order in which
they came, outputs have different numbers of inputs, and Cliffords wait on inputs and outputs only. All
of this is at stake only where the Cliffords are expanded. Chains in front of inputs are always
completed, and as many inputs are registered anew as there were before. A chain behind an output breaks
off at the output itself, which may not be measured, so the outputs are registered anew only where no
Clifford waits on any of them. -/
namespace OneWay

variable {R : Type} [Scalar R]

theorem Table.valuesSet {α : Type} {t : Table α} {k : Int} {v : α} (fresh : k ∉ t.keys) :
    (t.set k v).values = t.values ++ [v] ∧ (t.set k v).size = t.size + 1 := by
  simp [values, size, entriesSet fresh]

theorem Table.valuesErase {α : Type} {t : Table α} {k : Int} : (t.erase k).values.Sublist t.values :=
  List.filter_sublist.map Prod.snd

namespace Edit
variable {α β : Type} {g left : Graph R} {e : Edit R α} {f : α → Edit R β}

theorem bindOk {b : β} : (e >>= f).apply g = (.ok b, left) ↔
    ∃ a mid, e.apply g = (.ok a, mid) ∧ (f a).apply mid = (.ok b, left) := by
  rw [applyBind]
  cases e.apply g with
  | mk result mid => cases result <;> simp

theorem bindError {x : Fault} : (e >>= f).apply g = (.error x, left) ↔ e.apply g = (.error x, left) ∨
    ∃ a mid, e.apply g = (.ok a, mid) ∧ (f a).apply mid = (.error x, left) := by
  rw [applyBind]
  cases e.apply g with
  | mk result mid => cases result <;> simp

theorem bindWent {a : α} {mid : Graph R} (went : e.apply g = (.ok a, mid)) :
    (e >>= f).apply g = (f a).apply mid := by
  rw [applyBind, went]

theorem bindBroke {x : Fault} (broke : e.apply g = (.error x, left)) :
    (e >>= f).apply g = (.error x, left) := by
  rw [applyBind, broke]

theorem stepOk {f : Graph R → Except Fault (Graph R)} {u : Unit} :
    (step f).apply g = (.ok u, left) ↔ f g = .ok left := by
  rw [applyStep]
  cases f g <;> simp

theorem stepWithOk {f : Graph R → Except Fault (α × Graph R)} {a : α} :
    (stepWith f).apply g = (.ok a, left) ↔ f g = .ok (a, left) := by
  rw [applyStepWith]
  cases f g with
  | ok out => simp [Prod.ext_iff]
  | error x => simp

theorem addNodeOk {n : Int} : (addNode : Edit R Int).apply g = (.ok n, left) ↔
    n = g.next ∧ left = g.addNode.2 := by
  rw [addNode, stepWithOk]
  simp [Graph.addNode, eq_comm]

theorem Keeps.run {P : Graph R → Prop} (kept : Keeps P e) (now : P g) {out : Except Fault α}
    (ran : e.apply g = (out, left)) : P left := by
  have after := kept g now
  rwa [ran] at after

theorem leftBind {P : Graph R → Prop} (broke : ∀ x mid, e.apply g = (.error x, mid) → P mid)
    (went : ∀ a mid, e.apply g = (.ok a, mid) → P ((f a).apply mid).2) : P ((e >>= f).apply g).2 := by
  rw [applyBind]
  cases first : e.apply g with
  | mk result mid =>
    cases result with
    | ok a => exact went a mid first
    | error x => exact broke x mid first

theorem leftLift {x : Except Fault α} {P : Graph R → Prop} (now : P g)
    (went : ∀ a, x = .ok a → P ((f a).apply g).2) : P ((lift x >>= f).apply g).2 := by
  rw [applyBind, applyLift]
  cases x with
  | ok a => exact went a rfl
  | error _ => exact now

end Edit

namespace Graph
variable {g h next left : Graph R} {a b n q input output : Int} {c : LocalClifford R}

structure Extends (g left : Graph R) : Prop where
  inputs : left.inputs = g.inputs
  outputs : left.outputs = g.outputs
  cliffords : ∀ n ∈ left.cliffords.keys, n ∈ g.cliffords.keys
  nodes : ∀ n ∈ g.nodes, n ∈ left.nodes
  counter : g.next ≤ left.next

theorem Extends.refl (g : Graph R) : Extends g g :=
  ⟨rfl, rfl, fun _ mem => mem, fun _ mem => mem, Int.le_refl _⟩

theorem Extends.trans (first : Extends g h) (second : Extends h left) : Extends g left where
  inputs := second.inputs.trans first.inputs
  outputs := second.outputs.trans first.outputs
  cliffords n mem := first.cliffords n (second.cliffords n mem)
  nodes n mem := second.nodes n (first.nodes n mem)
  counter := Int.le_trans first.counter second.counter

theorem takenExtends (g : Graph R) (n : Int) : Extends g { g with cliffords := g.cliffords.erase n } :=
  ⟨rfl, rfl, fun _ mem => (Table.memKeysErase.mp mem).1, fun _ mem => mem, Int.le_refl _⟩

theorem extendsSteps (g : Graph R) : Edit.ChainSteps (Extends g) where
  addNode := by
    refine Edit.keepsStepWith fun mid _ next so ok => so.trans ?_
    cases ok
    exact ⟨rfl, rfl, fun _ mem => mem, fun _ mem => addNodeNodes.mpr (.inr mem),
      Int.le_of_lt (Int.lt_succ _)⟩
  addEdge a b := by
    refine Edit.keepsStep fun mid next so ok => so.trans ?_
    obtain ⟨counter, inputs, outputs, _, cliffords⟩ := addEdgeRest ok
    exact ⟨inputs, outputs, by simp [cliffords], fun n => (addEdgeNodes ok).mpr, by omega⟩
  assignBasis n basis := by
    refine Edit.keepsStep fun mid next so ok => so.trans ?_
    obtain ⟨_, _, rfl⟩ := assignBasisOk.mp ok
    exact ⟨rfl, rfl, fun _ mem => mem, fun _ mem => mem, Int.le_refl _⟩
  takeClifford n := by
    refine Edit.keepsStepWith fun mid _ next so ok => so.trans ?_
    cases ok
    exact takenExtends mid n

structure Stays (g left : Graph R) : Prop where
  nodes : ∀ n ∈ g.nodes, n ∈ left.nodes
  edges : ∀ a b, b ∈ g.adjacent a → b ∈ left.adjacent a
  bases : ∀ n ∈ g.nodes, left.bases.get? n = g.bases.get? n

structure Roles (g : Graph R) : Prop where
  counted : g.inputs.values = (List.range g.inputs.size).map Int.ofNat
  outputsOnce : g.outputs.values.Nodup
  outputsBelow : ∀ q ∈ g.outputs.values, q < g.inputs.size
  cliffordsHeld : ∀ n ∈ g.cliffords.keys, n ∈ g.inputs.keys ∨ n ∈ g.outputs.keys

theorem Extends.roles (so : Extends g left) (roles : g.Roles) : left.Roles where
  counted := so.inputs ▸ roles.counted
  outputsOnce := so.outputs ▸ roles.outputsOnce
  outputsBelow := by
    rw [so.inputs, so.outputs]
    exact roles.outputsBelow
  cliffordsHeld n mem := by
    rw [so.inputs, so.outputs]
    exact roles.cliffordsHeld n (so.cliffords n mem)

theorem emptyRoles : (empty : Graph R).Roles :=
  ⟨rfl, .nil, fun _ mem => absurd mem List.not_mem_nil, by simp [empty]⟩

theorem removeNodeRoles (roles : g.Roles) (ok : g.removeNode n = .ok next) : next.Roles := by
  obtain ⟨_, _, _, rfl⟩ := removeNodeRest ok
  refine ⟨roles.counted, roles.outputsOnce.sublist Table.valuesErase, ?_, ?_⟩
  · exact fun q mem => roles.outputsBelow q (Table.valuesErase.subset mem)
  · intro m mem
    obtain ⟨old, other⟩ := Table.memKeysErase.mp mem
    exact (roles.cliffordsHeld m old).imp_right fun output => Table.memKeysErase.mpr ⟨output, other⟩

theorem removeEdgeRoles (roles : g.Roles) (ok : g.removeEdge a b = .ok next) : next.Roles := by
  obtain ⟨_, _, rfl⟩ := removeEdgeDone ok
  exact ⟨roles.counted, roles.outputsOnce, roles.outputsBelow, roles.cliffordsHeld⟩

theorem registerInputRoles (roles : g.Roles) (ok : g.registerInput n = .ok (q, next)) : next.Roles := by
  obtain ⟨_, fresh, _, rfl⟩ := registerInputOk.mp ok
  obtain ⟨values, size⟩ := Table.valuesSet (v := (g.inputs.size : Int)) fresh
  refine ⟨?_, roles.outputsOnce, ?_, ?_⟩
  · simp only [values, size, roles.counted, List.range_succ, List.map_append]
    rfl
  · intro q mem
    have below := roles.outputsBelow q mem
    simp only [size]
    omega
  · exact fun m mem => (roles.cliffordsHeld m mem).imp_left fun old => Table.memKeysSet.mpr (.inr old)

theorem registerOutputRoles (roles : g.Roles) (ok : g.registerOutput n q = .ok next) : next.Roles := by
  obtain ⟨_, fresh, _, below, unused, rfl⟩ := registerOutputOk.mp ok
  obtain ⟨values, _⟩ := Table.valuesSet (v := q) fresh
  refine ⟨roles.counted, ?_, ?_, ?_⟩
  · simp only [values]
    exact List.nodup_append.mpr ⟨roles.outputsOnce, List.nodup_singleton q,
      fun a old b new same => unused (List.mem_singleton.mp new ▸ same ▸ old)⟩
  · simp only [values, List.forall_mem_append, List.forall_mem_singleton]
    exact ⟨roles.outputsBelow, Int.not_le.mp below⟩
  · exact fun m mem => (roles.cliffordsHeld m mem).imp_right fun old => Table.memKeysSet.mpr (.inr old)

theorem applyCliffordRoles (roles : g.Roles) (n : Int) (c : LocalClifford R) :
    ((applyClifford n c).apply g).2.Roles := by
  unfold applyClifford
  refine Edit.leftBind (by simp [Edit.applyGet]) fun _ _ got => ?_
  cases got
  refine Edit.leftLift roles fun _ _ => ?_
  split
  · rename_i held
    simp only [Bool.or_eq_true, Table.containsIff] at held
    have taken : Edit.Keeps (fun h : Graph R => h.Roles ∧ (n ∈ h.inputs.keys ∨ n ∈ h.outputs.keys))
        (takeClifford n) := by
      refine Edit.keepsStepWith fun h _ left so ok => ?_
      cases ok
      exact ⟨(takenExtends h n).roles so.1, so.2⟩
    have stored : ∀ c, Edit.Keeps (fun h : Graph R => h.Roles ∧ (n ∈ h.inputs.keys ∨ n ∈ h.outputs.keys))
        (modify fun h => h.storeClifford n c : Edit R PUnit) := by
      refine fun c => Edit.keepsModify fun h so => ⟨⟨so.1.1, so.1.2, so.1.3, fun m mem => ?_⟩, so.2⟩
      rcases Table.memKeysSet.mp mem with rfl | old
      · exact so.2
      · exact so.1.cliffordsHeld m old
    refine (Edit.keepsBind taken (fun old => ?_) g ⟨roles, held⟩).1
    split
    · exact Edit.keepsBind Edit.keepsLift stored
    · exact Edit.keepsBind Edit.keepsPure stored
  · refine Edit.leftLift roles fun _ _ => Edit.leftLift roles fun back _ => ?_
    split
    · exact roles
    · refine Edit.leftLift roles fun turned _ => ?_
      exact ((extendsSteps g).assignBasis n turned g (.refl g)).roles roles

structure Fronted (g : Graph R) (input : Int) (c : LocalClifford R) (left : Graph R) : Prop where
  next : left.next = g.next + 3
  keys : ∀ n, n ∈ left.nodes ↔
    n ∈ g.nodes ∨ n = g.next ∨ n = g.next + 1 ∨ n = g.next + 2
  adjacent : ∀ x y, y ∈ left.adjacent x ↔ y ∈ g.adjacent x ∨
    (x, y) ∈ [(g.next, g.next + 1), (g.next + 1, g.next + 2), (g.next + 2, input)] ∨
    (y, x) ∈ [(g.next, g.next + 1), (g.next + 1, g.next + 2), (g.next + 2, input)]
  inputs : left.inputs = g.inputs
  outputs : left.outputs = g.outputs
  bases : left.bases = ((g.bases.set g.next (.planar .xy c.unitary.alpha)).set (g.next + 1)
    (.planar .xy c.unitary.beta)).set (g.next + 2) (.planar .xy c.unitary.gamma)
  cliffords : left.cliffords = g.cliffords.erase input

theorem addNodesThere : n ∈ g.addNode.2.addNode.2.addNode.2.nodes ↔
    n ∈ g.nodes ∨ n = g.next ∨ n = g.next + 1 ∨ n = g.next + 2 := by
  have two : g.next + 1 + 1 = g.next + 2 := by omega
  simp only [addNode, NodeSet.memInsert, two]
  constructor
  · rintro (third | second | first | old) <;> simp [*]
  · rintro (old | first | second | third) <;> simp [*]

theorem addNodesAdjacent (sound : g.Sound) :
    g.addNode.2.addNode.2.addNode.2.adjacent n = g.adjacent n := by
  rw [addNodeAdjacent (addNodeSound (addNodeSound sound)), addNodeAdjacent (addNodeSound sound),
    addNodeAdjacent sound]

theorem addEdgeTotal (sound : g.Sound) (hereA : a ∈ g.nodes) (hereB : b ∈ g.nodes)
    (apart : b ∉ g.adjacent a) (other : a ≠ b) : ∃ next, g.addEdge a b = .ok next := by
  refine ⟨_, addEdgeOk.mpr ⟨hereA, hereB, ⟨(sound.keyed b).mp hereB, (sound.keyed a).mp hereA⟩, ?_, other, rfl⟩⟩
  rintro (back | forth)
  · exact apart (sound.joined b a back)
  · exact apart forth

theorem chainEdges {x y z w : Int} (sound : g.Sound) (there : ∀ n ∈ [x, y, z, w], n ∈ g.nodes)
    (apart : [x, y, z, w].Nodup)
    (clear : ∀ a ∈ [x, y, z, w], ∀ b ∈ [x, y, z, w], a ≠ b → b ∉ g.adjacent a) :
    ∃ g1 g2 left, g.addEdge x y = .ok g1 ∧ g1.addEdge y z = .ok g2 ∧ g2.addEdge z w = .ok left ∧
      (∀ n, n ∈ left.nodes ↔ n ∈ g.nodes) ∧
      (∀ n m, m ∈ left.adjacent n ↔ m ∈ g.adjacent n ∨
        (n, m) ∈ [(x, y), (y, z), (z, w)] ∨ (m, n) ∈ [(x, y), (y, z), (z, w)]) ∧
      left.next = g.next ∧ left.inputs = g.inputs ∧ left.outputs = g.outputs ∧
      left.bases = g.bases ∧ left.cliffords = g.cliffords := by
  simp only [List.forall_mem_cons] at there
  simp only [List.nodup_cons, List.mem_cons, List.not_mem_nil, or_false, not_or] at apart
  obtain ⟨hereX, hereY, hereZ, here, _⟩ := there
  obtain ⟨⟨xy, xz, _⟩, ⟨yz, yi⟩, zi, _⟩ := apart
  obtain ⟨g1, ok1⟩ := addEdgeTotal sound hereX hereY (clear x (by simp) y (by simp) xy) xy
  have sound1 := addEdgeSound sound ok1
  obtain ⟨g2, ok2⟩ : ∃ next, g1.addEdge y z = .ok next := by
    refine addEdgeTotal sound1 ((addEdgeNodes ok1).mpr hereY) ((addEdgeNodes ok1).mpr hereZ) ?_ yz
    simp [addEdgeAdjacent ok1, clear y (by simp) z (by simp) yz, Ne.symm xy, Ne.symm xz]
  have sound2 := addEdgeSound sound1 ok2
  obtain ⟨left, ok3⟩ : ∃ next, g2.addEdge z w = .ok next := by
    refine addEdgeTotal sound2 ((addEdgeNodes ok2).mpr ((addEdgeNodes ok1).mpr hereZ))
      ((addEdgeNodes ok2).mpr ((addEdgeNodes ok1).mpr here)) ?_ zi
    simp [addEdgeAdjacent ok2, addEdgeAdjacent ok1, clear z (by simp) w (by simp) zi, Ne.symm xz,
      Ne.symm yz, Ne.symm yi]
  obtain ⟨next1, inputs1, outputs1, bases1, cliffords1⟩ := addEdgeRest ok1
  obtain ⟨next2, inputs2, outputs2, bases2, cliffords2⟩ := addEdgeRest ok2
  obtain ⟨next3, inputs3, outputs3, bases3, cliffords3⟩ := addEdgeRest ok3
  refine ⟨g1, g2, left, ok1, ok2, ok3, fun n => ?_, fun n m => ?_, ?_, ?_, ?_, ?_, ?_⟩
  · rw [addEdgeNodes ok3, addEdgeNodes ok2, addEdgeNodes ok1]
  · rw [addEdgeAdjacent ok3, addEdgeAdjacent ok2, addEdgeAdjacent ok1]
    simp only [List.mem_cons, List.not_mem_nil, or_false, Prod.mk.injEq]
    grind
  · rw [next3, next2, next1]
  · rw [inputs3, inputs2, inputs1]
  · rw [outputs3, outputs2, outputs1]
  · rw [bases3, bases2, bases1]
  · rw [cliffords3, cliffords2, cliffords1]

theorem chainBuilt {x y z w : Int} (sound : g.Sound) (here : n ∈ g.nodes)
    (listed : ∀ m ∈ [x, y, z, w], m = n ∨ m = g.next ∨ m = g.next + 1 ∨ m = g.next + 2)
    (apart : [x, y, z, w].Nodup) : ∃ h1 h2 left,
    addEdge (addNode { g with cliffords := g.cliffords.erase n }).2.addNode.2.addNode.2 x y = .ok h1 ∧
    h1.addEdge y z = .ok h2 ∧ h2.addEdge z w = .ok left ∧
    (∀ m, m ∈ left.nodes ↔
      m ∈ g.nodes ∨ m = g.next ∨ m = g.next + 1 ∨ m = g.next + 2) ∧
    (∀ a b, b ∈ left.adjacent a ↔ b ∈ g.adjacent a ∨
      (a, b) ∈ [(x, y), (y, z), (z, w)] ∨ (b, a) ∈ [(x, y), (y, z), (z, w)]) ∧
    left.next = g.next + 3 ∧ left.inputs = g.inputs ∧ left.outputs = g.outputs ∧ left.bases = g.bases ∧
      left.cliffords = g.cliffords.erase n := by
  have taken : Sound { g with cliffords := g.cliffords.erase n } := { sound with }
  obtain ⟨h, eq⟩ : ∃ h, h =
    (addNode { g with cliffords := g.cliffords.erase n }).2.addNode.2.addNode.2 := ⟨_, rfl⟩
  have grown : h.Sound := eq ▸ addNodeSound (addNodeSound (addNodeSound taken))
  have keys : ∀ m, m ∈ h.nodes ↔
      m ∈ g.nodes ∨ m = g.next ∨ m = g.next + 1 ∨ m = g.next + 2 := by
    intro m
    rw [eq]
    exact addNodesThere
  have near : ∀ a, h.adjacent a = g.adjacent a := by
    intro a
    rw [eq, addNodesAdjacent taken]
    rfl
  have there : ∀ m ∈ [x, y, z, w], m ∈ h.nodes := by
    intro m mem
    rw [keys]
    rcases listed m mem with rfl | new
    · exact .inl here
    · exact .inr new
  have clear : ∀ a ∈ [x, y, z, w], ∀ b ∈ [x, y, z, w], a ≠ b → b ∉ h.adjacent a := by
    -- Of two different nodes one is new, and that has no edges.
    intro a memA b memB other joined
    rw [near] at joined
    have oldA := sound.numbered a (sound.ownerThere joined)
    have oldB := sound.numbered b (sound.neighborThere joined)
    have sameA := listed a memA
    have sameB := listed b memB
    omega
  have counter : h.next = g.next + 3 := by
    rw [eq]
    simp only [addNode]
    omega
  obtain ⟨h1, h2, left, ok1, ok2, ok3, there, edges, next, inputs, outputs, bases, cliffords⟩ :=
    chainEdges grown there apart clear
  refine ⟨h1, h2, left, eq ▸ ok1, ok2, ok3, fun m => (there m).trans (keys m), fun a b => ?_,
    next.trans counter, ?_, ?_, ?_, ?_⟩
  · rw [← near]
    exact edges a b
  · rw [inputs, eq]
    rfl
  · rw [outputs, eq]
    rfl
  · rw [bases, eq]
    rfl
  · rw [cliffords, eq]
    rfl

theorem expandInputChain (sound : g.Sound) (here : input ∈ g.nodes)
    (waiting : g.cliffords.get? input = some c) :
    ∃ left, (expandInput input).apply g = (.ok (g.next, some ⟨g.next, g.next + 1, g.next + 2⟩), left) ∧
      Fronted g input c left := by
  have below := sound.numbered input here
  obtain ⟨h1, h2, h3, ok1, ok2, ok3, keys, edges, next, inputs, outputs, bases, cliffords⟩ :=
    chainBuilt (x := g.next) (y := g.next + 1) (z := g.next + 2) (w := input) sound here (by simp)
      (by simp; omega)
  have unread : ∀ n, g.next ≤ n → n ∉ h3.outputs.keys := by
    intro n new output
    rw [outputs] at output
    exact Int.not_lt.mpr new (sound.numbered n (sound.outputsThere n output))
  refine ⟨{ h3 with bases := ((h3.bases.set g.next (.planar .xy c.unitary.alpha)).set (g.next + 1)
    (.planar .xy c.unitary.beta)).set (g.next + 2) (.planar .xy c.unitary.gamma) }, ?_,
    next, keys, edges, inputs, outputs, by rw [bases], cliffords⟩
  unfold expandInput
  refine Edit.bindOk.mpr ⟨some c, _, Edit.stepWithOk.mpr (by rw [waiting]), ?_⟩
  refine Edit.bindOk.mpr ⟨g.next, _, Edit.addNodeOk.mpr ⟨rfl, rfl⟩, ?_⟩
  refine Edit.bindOk.mpr ⟨g.next + 1, _, Edit.addNodeOk.mpr ⟨rfl, rfl⟩, ?_⟩
  refine Edit.bindOk.mpr ⟨g.next + 2, _, Edit.addNodeOk.mpr ⟨(Int.add_assoc _ 1 1).symm, rfl⟩, ?_⟩
  refine Edit.bindOk.mpr ⟨(), h1, Edit.stepOk.mpr ok1, ?_⟩
  refine Edit.bindOk.mpr ⟨(), h2, Edit.stepOk.mpr ok2, ?_⟩
  refine Edit.bindOk.mpr ⟨(), h3, Edit.stepOk.mpr ok3, ?_⟩
  refine Edit.bindOk.mpr ⟨(), _, Edit.stepOk.mpr (assignBasisOk.mpr ⟨?_, unread _ ?_, rfl⟩), ?_⟩
  · simp [keys]
  · exact Int.le_refl _
  refine Edit.bindOk.mpr ⟨(), _, Edit.stepOk.mpr (assignBasisOk.mpr ⟨?_, unread _ ?_, rfl⟩), ?_⟩
  · simp [keys]
  · omega
  refine Edit.bindOk.mpr ⟨(), _, Edit.stepOk.mpr (assignBasisOk.mpr ⟨?_, unread _ ?_, rfl⟩), rfl⟩
  · simp [keys]
  · omega

theorem expandInputPlain (free : g.cliffords.get? input = none) : (expandInput input).apply g =
    (.ok (input, none), { g with cliffords := g.cliffords.erase input }) := by
  unfold expandInput
  exact Edit.bindOk.mpr ⟨none, _, Edit.stepWithOk.mpr (by rw [free]), rfl⟩

theorem expandInputTotal (sound : g.Sound) (here : input ∈ g.nodes) :
    ∃ new chain left, (expandInput input).apply g = (.ok (new, chain), left) ∧ Extends g left ∧
      left.Sound ∧ left.cliffords = g.cliffords.erase input ∧ new ∈ left.nodes ∧
      (new = input ∨ g.next ≤ new ∧ new < left.next) := by
  cases waiting : g.cliffords.get? input with
  | none =>
    have ok := expandInputPlain waiting
    exact ⟨input, none, _, ok, ((extendsSteps g).expandInput input).run (.refl g) ok,
      (Edit.soundSteps.expandInput input).run sound ok, rfl, here, .inl rfl⟩
  | some c =>
    obtain ⟨left, ok, front⟩ := expandInputChain sound here waiting
    refine ⟨_, _, left, ok, ((extendsSteps g).expandInput input).run (.refl g) ok,
      (Edit.soundSteps.expandInput input).run sound ok, front.cliffords, (front.keys _).mpr (.inr (.inl rfl)),
      .inr ⟨Int.le_refl _, ?_⟩⟩
    rw [front.next]
    omega

theorem expandEachInput {ns : List Int} (sound : g.Sound) (once : ns.Nodup)
    (there : ∀ n ∈ ns, n ∈ g.nodes) :
    ∃ out left, (ns.mapM expandInput).apply g = (.ok out, left) ∧ Extends g left ∧
      out.length = ns.length ∧ (out.map Prod.fst).Nodup ∧
      (∀ n ∈ out.map Prod.fst, n ∈ left.nodes ∧ (n ∈ ns ∨ g.next ≤ n)) ∧
      ∀ n, n ∈ left.cliffords.keys ↔ n ∈ g.cliffords.keys ∧ n ∉ ns := by
  induction ns generalizing g with
  | nil => exact ⟨[], g, rfl, .refl g, rfl, .nil, by simp, by simp⟩
  | cons n ns ih =>
    obtain ⟨other, once⟩ := List.nodup_cons.mp once
    obtain ⟨here, there⟩ := List.forall_mem_cons.mp there
    obtain ⟨new, chain, mid, first, so, soundMid, free, newThere, kind⟩ := expandInputTotal sound here
    obtain ⟨out, left, rest, later, length, onceOut, outThere, gone⟩ :=
      ih soundMid once fun m mem => so.nodes m (there m mem)
    have below : ∀ m ∈ n :: ns, m < g.next :=
      List.forall_mem_cons.mpr ⟨sound.numbered n here, fun m mem => sound.numbered m (there m mem)⟩
    refine ⟨(new, chain) :: out, left, ?_, so.trans later, ?_, ?_, ?_, ?_⟩
    · rw [List.mapM_cons]
      exact Edit.bindOk.mpr ⟨_, mid, first, Edit.bindOk.mpr ⟨out, left, rest, rfl⟩⟩
    · rw [List.length_cons, List.length_cons, length]
    · -- The new node of this input is older than those of the inputs after it.
      refine List.nodup_cons.mpr ⟨fun mem => ?_, onceOut⟩
      have counter := so.counter
      rcases (outThere new mem).2 with listed | late
      · have early := below new (List.mem_cons_of_mem _ listed)
        rcases kind with rfl | ⟨fresh, _⟩
        · exact other listed
        · omega
      · have early := below n (by simp)
        rcases kind with rfl | ⟨_, used⟩
        · omega
        · omega
    · refine List.forall_mem_cons.mpr ⟨⟨later.nodes new newThere, ?_⟩, fun m mem => ⟨(outThere m mem).1, ?_⟩⟩
      · exact kind.imp (fun same => by simp [same]) And.left
      · exact (outThere m mem).2.imp (List.mem_cons_of_mem _) (Int.le_trans so.counter)
    · intro m
      rw [gone, free, Table.memKeysErase, List.mem_cons, not_or, and_assoc]

theorem registerEach {f : Int × Option Chain → Edit R PUnit}
    (each : ∀ out, f out = Edit.registerInput out.1 >>= fun _ => pure ⟨⟩)
    {outs : List (Int × Option Chain)} (once : (outs.map Prod.fst).Nodup)
    (fresh : ∀ n ∈ outs.map Prod.fst, n ∈ g.nodes ∧ n ∉ g.inputs.keys) :
    ∃ inputs, (outs.forM f).apply g = (.ok ⟨⟩, { g with inputs := inputs }) ∧ inputs.entries =
      g.inputs.entries ++ ((outs.map Prod.fst).zipIdx g.inputs.size).map fun e => (e.1, (e.2 : Int)) := by
  induction outs generalizing g with
  | nil => exact ⟨g.inputs, rfl, by simp⟩
  | cons out outs ih =>
    obtain ⟨other, once⟩ := List.nodup_cons.mp once
    obtain ⟨⟨here, new⟩, fresh⟩ := List.forall_mem_cons.mp fresh
    obtain ⟨inputs, rest, entries⟩ := ih (g := { g with inputs := g.inputs.set out.1 g.inputs.size }) once
      fun n mem => ⟨(fresh n mem).1, by
        rw [Table.memKeysSet, not_or]
        exact ⟨fun same => other (same ▸ mem), (fresh n mem).2⟩⟩
    refine ⟨inputs, ?_, ?_⟩
    · have step := registerInputOk.mpr ⟨here, new, rfl, rfl⟩
      refine Edit.bindOk.mpr ⟨⟨⟩, _, ?_, rest⟩
      rw [each]
      exact Edit.bindOk.mpr ⟨_, _, Edit.stepWithOk.mpr step, rfl⟩
    · rw [entries, (Table.valuesSet new).2, Table.entriesSet new]
      simp [List.zipIdx_cons]

theorem expandInputsRun (sound : g.Sound) : ∃ out mid inputs,
    ((g.inputs.byValue.map Prod.fst).mapM expandInput).apply g = (.ok out, mid) ∧
      expandInputs.apply g =
        (.ok (replaced (g.inputs.byValue.map Prod.fst) out), { mid with inputs := inputs }) ∧
      inputs.entries = (out.map Prod.fst).zipIdx.map (fun e => (e.1, (e.2 : Int))) ∧
      inputs.size = g.inputs.size ∧ Extends g mid ∧
      ∀ n, n ∈ mid.cliffords.keys ↔ n ∈ g.cliffords.keys ∧ n ∉ g.inputs.keys := by
  have order : (g.inputs.byValue.map Prod.fst).Perm g.inputs.keys := (List.mergeSort_perm _ _).map _
  obtain ⟨out, mid, ok, so, length, once, new, gone⟩ := expandEachInput sound
    (order.nodup_iff.mpr g.inputs.distinct) fun n mem => sound.inputsThere n (order.mem_iff.mp mem)
  obtain ⟨inputs, registered, entries⟩ := registerEach (g := { mid with inputs := ∅ }) (fun _ => rfl) once
    fun n mem => ⟨(new n mem).1, by simp⟩
  have numbered : inputs.entries = (out.map Prod.fst).zipIdx.map fun e => (e.1, (e.2 : Int)) := entries
  refine ⟨out, mid, inputs, ok, ?_, numbered, ?_, so, fun n => ?_⟩
  · unfold expandInputs
    refine Edit.bindOk.mpr ⟨g, g, rfl, Edit.bindOk.mpr ⟨out, mid, ok, ?_⟩⟩
    exact Edit.bindOk.mpr ⟨⟨⟩, { mid with inputs := ∅ }, rfl, Edit.bindOk.mpr ⟨⟨⟩, _, registered, rfl⟩⟩
  · have keys := order.length_eq
    simp only [List.length_map, Table.keys] at keys length
    simp only [Table.size, numbered, List.length_map, List.length_zipIdx]
    omega
  · rw [gone, order.mem_iff]

theorem expandInputsTotal (sound : g.Sound) (roles : g.Roles) :
    ∃ out left, expandInputs.apply g = (.ok out, left) ∧ left.Roles ∧ left.outputs = g.outputs ∧
      ∀ n, n ∈ left.cliffords.keys ↔ n ∈ g.cliffords.keys ∧ n ∉ g.inputs.keys := by
  obtain ⟨out, mid, inputs, _, ran, numbered, size, so, kept⟩ := expandInputsRun sound
  refine ⟨_, { mid with inputs := inputs }, ran, ⟨?_, ?_, ?_, ?_⟩, so.outputs, kept⟩
  · have values : inputs.values = ((out.map Prod.fst).zipIdx.map Prod.snd).map Int.ofNat := by
      simp only [Table.values, numbered, List.map_map]
      rfl
    rw [List.zipIdx_map_snd, ← List.range_eq_range'] at values
    simpa [Table.size, numbered] using values
  · exact so.outputs ▸ roles.outputsOnce
  · intro q mem
    rw [so.outputs] at mem
    show q < (inputs.size : Int)
    rw [size]
    exact roles.outputsBelow q mem
  · intro n mem
    obtain ⟨old, inner⟩ := (kept n).mp mem
    exact .inr (so.outputs ▸ (roles.cliffordsHeld n old).resolve_left inner)

theorem expandOutputIdle (free : output ∉ g.cliffords.keys) :
    (expandOutput output).apply g = (.ok (output, none), g) := by
  unfold expandOutput
  refine Edit.bindOk.mpr ⟨none, g, Edit.stepWithOk.mpr ?_, rfl⟩
  rw [Table.getNone.mpr free, Table.eraseAbsent free]

/- A chain behind an output breaks off at the output itself, and the Clifford is lost. -/
theorem expandOutputBreaks (sound : g.Sound) (here : output ∈ g.outputs.keys)
    (waits : output ∈ g.cliffords.keys) : ∃ left,
      (expandOutput output).apply g = (.error .basisOnOutput, left) ∧ Stays g left ∧
        left.cliffords = g.cliffords.erase output := by
  obtain ⟨c, waiting⟩ := Table.memKeys.mp waits
  have there := sound.outputsThere output here
  have below := sound.numbered output there
  obtain ⟨h1, h2, left, ok1, ok2, ok3, keys, edges, _, _, outputs, bases, cliffords⟩ :=
    chainBuilt (x := output) (y := g.next) (z := g.next + 1) (w := g.next + 2) sound there (by simp)
      (by simp; omega)
  refine ⟨left, ?_, ⟨fun n mem => (keys n).mpr (.inl mem), fun a b mem => (edges a b).mpr (.inl mem),
    fun n _ => by rw [bases]⟩, cliffords⟩
  have refused : left.assignBasis output (.planar .xy c.unitary.alpha) = .error .basisOnOutput :=
    assignBasisRefused ((keys output).mpr (.inl there)) (outputs ▸ here)
  unfold expandOutput
  refine Edit.bindError.mpr (.inr ⟨some c, _, Edit.stepWithOk.mpr (by rw [waiting]), ?_⟩)
  refine Edit.bindError.mpr (.inr ⟨g.next, _, Edit.addNodeOk.mpr ⟨rfl, rfl⟩, ?_⟩)
  refine Edit.bindError.mpr (.inr ⟨g.next + 1, _, Edit.addNodeOk.mpr ⟨rfl, rfl⟩, ?_⟩)
  refine Edit.bindError.mpr (.inr ⟨g.next + 2, _, Edit.addNodeOk.mpr ⟨(Int.add_assoc _ 1 1).symm, rfl⟩, ?_⟩)
  refine Edit.bindError.mpr (.inr ⟨(), h1, Edit.stepOk.mpr ok1, ?_⟩)
  refine Edit.bindError.mpr (.inr ⟨(), h2, Edit.stepOk.mpr ok2, ?_⟩)
  refine Edit.bindError.mpr (.inr ⟨(), left, Edit.stepOk.mpr ok3, Edit.bindBroke ?_⟩)
  rw [Edit.assignBasis, Edit.applyStep, refused]

section
variable {f : Int × Int → Edit R (Int × Option Chain)} {es : List (Int × Int)}

theorem eachOutputIdle (each : ∀ e, f e = expandOutput e.1) (free : ∀ e ∈ es, e.1 ∉ g.cliffords.keys) :
    (es.mapM f).apply g = (.ok (es.map fun e => (e.1, none)), g) := by
  induction es with
  | nil => rfl
  | cons e es ih =>
    obtain ⟨first, free⟩ := List.forall_mem_cons.mp free
    rw [List.mapM_cons]
    exact Edit.bindOk.mpr ⟨_, g, each e ▸ expandOutputIdle first, Edit.bindOk.mpr ⟨_, g, ih free, rfl⟩⟩

theorem eachOutputBreaks (sound : g.Sound) (each : ∀ e, f e = expandOutput e.1)
    (here : ∀ e ∈ es, e.1 ∈ g.outputs.keys) (waits : ∃ e ∈ es, e.1 ∈ g.cliffords.keys) :
    ∃ left, (es.mapM f).apply g = (.error .basisOnOutput, left) ∧ Stays g left ∧
      ∃ n ∈ g.cliffords.keys, n ∉ left.cliffords.keys := by
  induction es with
  | nil => simp at waits
  | cons e es ih =>
    obtain ⟨first, here⟩ := List.forall_mem_cons.mp here
    by_cases now : e.1 ∈ g.cliffords.keys
    · obtain ⟨left, broke, stays, cliffords⟩ := expandOutputBreaks sound first now
      refine ⟨left, ?_, stays, e.1, now, by simp [cliffords]⟩
      rw [List.mapM_cons, each]
      exact Edit.bindBroke broke
    · obtain ⟨left, broke, lost⟩ := ih here (by simpa [now] using waits)
      refine ⟨left, ?_, lost⟩
      rw [List.mapM_cons, each, Edit.bindWent (expandOutputIdle now)]
      exact Edit.bindBroke broke

end

theorem registerAll (es : List (Int × Int)) (once : (es.map Prod.fst).Nodup) (apart : (es.map Prod.snd).Nodup)
    (there : ∀ e ∈ es, e.1 ∈ g.nodes ∧ e.1 ∉ g.bases.keys ∧ e.2 < g.inputs.size)
    (fresh : ∀ e ∈ es, e.1 ∉ g.outputs.keys ∧ e.2 ∉ g.outputs.values) :
    ∃ outputs, es.foldlM (fun g e => g.registerOutput e.1 e.2) g = .ok { g with outputs := outputs } ∧
      outputs.entries = g.outputs.entries ++ es := by
  induction es generalizing g with
  | nil => exact ⟨g.outputs, rfl, by simp⟩
  | cons e es ih =>
    obtain ⟨other, once⟩ := List.nodup_cons.mp once
    obtain ⟨different, apart⟩ := List.nodup_cons.mp apart
    obtain ⟨⟨here, free, below⟩, there⟩ := List.forall_mem_cons.mp there
    obtain ⟨⟨new, unused⟩, fresh⟩ := List.forall_mem_cons.mp fresh
    obtain ⟨outputs, rest, entries⟩ := ih (g := { g with outputs := g.outputs.set e.1 e.2 }) once apart there
      fun e' mem => by
        rw [Table.memKeysSet, (Table.valuesSet new).1, List.mem_append, List.mem_singleton, not_or, not_or]
        exact ⟨⟨fun same => other (same ▸ List.mem_map_of_mem mem), (fresh e' mem).1⟩, (fresh e' mem).2,
          fun same => different (same ▸ List.mem_map_of_mem mem)⟩
    have step := registerOutputOk.mpr ⟨here, new, free, Int.not_le.mpr below, unused, rfl⟩
    refine ⟨outputs, ?_, ?_⟩
    · rw [List.foldlM_cons, step, Result.okBind, rest]
    · rw [entries, Table.entriesSet new, List.append_assoc]
      rfl

theorem registerBack {f : (Int × Option Chain) × Int × Int → Edit R PUnit}
    (each : ∀ e, f e = Edit.registerOutput e.1.1 e.2.2) {es : List (Int × Int)}
    (ok : es.foldlM (fun g e => g.registerOutput e.1 e.2) g = .ok next) :
    (((es.map fun e => (e.1, none)).zip es).forM f).apply g = (.ok ⟨⟩, next) := by
  induction es generalizing g with
  | nil =>
    cases ok
    rfl
  | cons e es ih =>
    rw [List.foldlM_cons, Result.bindOk] at ok
    obtain ⟨h, first, later⟩ := ok
    refine Edit.bindOk.mpr ⟨⟨⟩, h, ?_, ih later⟩
    rw [each]
    exact Edit.stepOk.mpr first

theorem outputsOrder : g.outputs.byValue.Perm g.outputs.entries := List.mergeSort_perm _ _

theorem expandOutputsIdle (sound : g.Sound) (roles : g.Roles)
    (idle : ∀ n ∈ g.outputs.keys, n ∉ g.cliffords.keys) :
    ∃ out outputs, expandOutputs.apply g = (.ok out, { g with outputs := outputs }) ∧
      outputs.entries = g.outputs.byValue := by
  have order := outputsOrder (g := g)
  have key : ∀ e ∈ g.outputs.byValue, e.1 ∈ g.outputs.keys := fun e mem =>
    List.mem_map_of_mem (order.mem_iff.mp mem)
  have value : ∀ e ∈ g.outputs.byValue, e.2 ∈ g.outputs.values := fun e mem =>
    List.mem_map_of_mem (order.mem_iff.mp mem)
  obtain ⟨outputs, registered, entries⟩ := registerAll (g := { g with outputs := ∅ }) _
    ((order.map Prod.fst).nodup_iff.mpr g.outputs.distinct)
    ((order.map Prod.snd).nodup_iff.mpr roles.outputsOnce)
    (fun e mem => ⟨sound.outputsThere _ (key e mem), sound.outputsFree _ (key e mem),
      roles.outputsBelow _ (value e mem)⟩) (fun e _ => ⟨by simp, List.not_mem_nil⟩)
  refine ⟨replaced (g.outputs.byValue.map Prod.fst) (g.outputs.byValue.map fun e => (e.1, none)), outputs, ?_,
    entries⟩
  unfold expandOutputs
  refine Edit.bindOk.mpr ⟨g, g, rfl, Edit.bindOk.mpr ⟨_, g, eachOutputIdle (fun _ => rfl) fun e mem =>
    idle _ (key e mem), ?_⟩⟩
  have back := registerBack (fun _ => rfl) registered
  exact Edit.bindOk.mpr ⟨⟨⟩, { g with outputs := ∅ }, rfl, Edit.bindOk.mpr ⟨⟨⟩, _, back, rfl⟩⟩

theorem expandOutputsBreaks (sound : g.Sound) (output : n ∈ g.outputs.keys) (waits : n ∈ g.cliffords.keys) :
    ∃ left, expandOutputs.apply g = (.error .basisOnOutput, left) ∧ Extends g left ∧ Stays g left ∧
      ∃ m ∈ g.cliffords.keys, m ∉ left.cliffords.keys := by
  have order := outputsOrder (g := g)
  have step : ∀ e : Int × Int, Edit.Keeps (Extends g) (expandOutput e.1 : Edit R (Int × Option Chain)) :=
    fun e => (extendsSteps g).expandOutput e.1
  obtain ⟨e, listed, rfl⟩ := List.mem_map.mp output
  obtain ⟨left, broke, lost⟩ := eachOutputBreaks (f := fun e => expandOutput e.1) sound (fun _ => rfl)
    (fun e mem => List.mem_map_of_mem (order.mem_iff.mp mem)) ⟨e, order.mem_iff.mpr listed, waits⟩
  refine ⟨left, ?_, (Edit.keepsMapM step _).run (.refl g) broke, lost⟩
  unfold expandOutputs
  rw [Edit.bindWent Edit.applyGet]
  exact Edit.bindBroke broke

theorem expandOutputsRoles (sound : g.Sound) (roles : g.Roles) : (expandOutputs.apply g).2.Roles := by
  by_cases waiting : ∃ n, n ∈ g.outputs.keys ∧ n ∈ g.cliffords.keys
  · obtain ⟨n, output, waits⟩ := waiting
    obtain ⟨left, broke, so, _⟩ := expandOutputsBreaks sound output waits
    rw [broke]
    exact so.roles roles
  · obtain ⟨out, outputs, ran, entries⟩ :=
      expandOutputsIdle sound roles fun n output waits => waiting ⟨n, output, waits⟩
    have order := outputsOrder (g := g)
    rw [← entries] at order
    rw [ran]
    refine ⟨roles.counted, (order.map Prod.snd).nodup_iff.mpr roles.outputsOnce, ?_, ?_⟩
    · exact fun q mem => roles.outputsBelow q ((order.map Prod.snd).mem_iff.mp mem)
    · exact fun n mem => (roles.cliffordsHeld n mem).imp_right (order.map Prod.fst).mem_iff.mpr

theorem performRoles (sound : g.Sound) (roles : g.Roles) (op : Operation R) : (g.perform op).Roles := by
  cases op with
  | addNode => exact (Edit.keepsDiscard (extendsSteps g).addNode g (.refl g)).roles roles
  | addEdge a b => exact ((extendsSteps g).addEdge a b g (.refl g)).roles roles
  | removeNode n => exact Edit.keepsStep (fun _ _ => removeNodeRoles) g roles
  | removeEdge a b => exact Edit.keepsStep (fun _ _ => removeEdgeRoles) g roles
  | registerInput n =>
    exact Edit.keepsDiscard (Edit.keepsStepWith fun _ _ _ => registerInputRoles) g roles
  | registerOutput n q => exact Edit.keepsStep (fun _ _ => registerOutputRoles) g roles
  | assignBasis n basis => exact ((extendsSteps g).assignBasis n basis g (.refl g)).roles roles
  | applyClifford n c => exact applyCliffordRoles roles n c
  | expandCliffords =>
    have inputs : Edit.Keeps (fun h : Graph R => h.Sound ∧ h.Roles) expandInputs := by
      intro h now
      obtain ⟨_, left, ok, kept, _⟩ := expandInputsTotal now.1 now.2
      exact ⟨Edit.soundSteps.expandInputs h now.1, by rwa [ok]⟩
    have outputs : Edit.Keeps (fun h : Graph R => h.Sound ∧ h.Roles) expandOutputs := fun h now =>
      ⟨Edit.soundSteps.expandOutputs h now.1, expandOutputsRoles now.1 now.2⟩
    exact (Edit.keepsDiscard (Edit.keepsBind inputs fun _ => Edit.keepsBind outputs fun _ =>
      Edit.keepsPure) g ⟨sound, roles⟩).2

theorem reachableRoles (reach : g.Reachable) : g.Roles := by
  have both : g.Sound ∧ g.Roles :=
    reachableInduction (P := fun g => g.Sound ∧ g.Roles) ⟨emptySound, emptyRoles⟩
      (fun _ op now => ⟨performSound now.1 op, performRoles now.1 now.2 op⟩) reach
  exact both.2

theorem counterSteps (k : Int) : Edit.Steps (fun g : Graph R => k ≤ g.next) where
  addNode := by
    refine Edit.keepsStepWith fun g _ next so ok => ?_
    cases ok
    exact Int.le_trans so (Int.le_of_lt (Int.lt_succ _))
  addEdge _ _ := Edit.keepsStep fun g next so ok => (addEdgeRest ok).1 ▸ so
  assignBasis _ _ := Edit.keepsStep fun g next so ok => by
    obtain ⟨_, _, rfl⟩ := assignBasisOk.mp ok
    exact so
  takeClifford _ := Edit.keepsStepWith fun g _ next so ok => by
    cases ok
    exact so
  removeNode _ := Edit.keepsStep fun g next so ok => by
    obtain ⟨_, _, _, rfl⟩ := removeNodeRest ok
    exact so
  removeEdge _ _ := Edit.keepsStep fun g next so ok => by
    obtain ⟨_, _, rfl⟩ := removeEdgeDone ok
    exact so
  registerInput _ := Edit.keepsStepWith fun g _ next so ok => by
    obtain ⟨_, _, _, rfl⟩ := registerInputOk.mp ok
    exact so
  registerOutput _ _ := Edit.keepsStep fun g next so ok => by
    obtain ⟨_, _, _, _, _, rfl⟩ := registerOutputOk.mp ok
    exact so
  storeClifford _ _ := Edit.keepsModify fun _ so => so
  dropInputs := Edit.keepsModify fun _ so => so
  dropOutputs := Edit.keepsModify fun _ so => so

theorem counterGrows {before ops : List (Operation R)} (earlier : before <+: ops) :
    (after before).next ≤ (after ops).next := by
  obtain ⟨rest, rfl⟩ := earlier
  rw [after, after, List.foldl_append]
  have run : ∀ (ops : List (Operation R)) (g : Graph R), g.next ≤ (ops.foldl perform g).next := by
    intro ops
    induction ops with
    | nil => exact fun g => Int.le_refl _
    | cons op ops ih => exact fun g => Int.le_trans ((counterSteps g.next).edit op g (Int.le_refl _)) (ih _)
  exact run rest _

theorem Sound.rowsRead (sound : g.Sound) {x : Fault}
    (failed : g.addEdge a b = .error x ∨ g.removeEdge a b = .error x ∨ g.removeNode a = .error x) :
    x ≠ .keyAbsent := by
  rintro rfl
  have nodes (m : Int) : g.requireNode m ≠ .error .keyAbsent := by
    unfold requireNode
    split <;> simp
  have rows (m : Int) (here : m ∈ g.nodes) : g.row m ≠ .error .keyAbsent := by simp [sound.rowOk here]
  rcases failed with failed | failed | failed
  · simp only [addEdge, Result.bindError, nodes, false_or, requireNodeOk, exists_const] at failed
    obtain ⟨hereA, hereB, failed⟩ := failed
    simp only [rows _ hereA, rows _ hereB, false_or] at failed
    obtain ⟨back, _, forth, _, failed⟩ := failed
    split at failed
    · cases failed
    · split at failed <;> cases failed
  · simp only [removeEdge, Result.bindError, nodes, false_or, requireNodeOk, exists_const] at failed
    obtain ⟨hereA, hereB, failed⟩ := failed
    simp only [rows _ hereA, rows _ hereB, false_or] at failed
    obtain ⟨back, _, forth, _, failed⟩ := failed
    split at failed
    · cases failed
    · have known : b ∈ (g.setAdjacent a (forth.erase b)).adjacency.keys :=
        (setAdjacentKeys ((sound.keyed a).mp hereA)).mpr ((sound.keyed b).mp hereB)
      rw [Graph.rowOk.mpr ⟨known, rfl⟩] at failed
      cases failed
  · simp only [removeNode, Result.bindError, nodes, false_or, requireNodeOk, exists_const] at failed
    obtain ⟨here, failed⟩ := failed
    split at failed
    · cases failed
    · have known : ∀ m ∈ (g.adjacent a).toList, m ∈ g.adjacency.keys := fun m mem =>
        (sound.keyed m).mp (sound.neighborThere mem)
      obtain ⟨h, detached⟩ := detachTotal (n := a) known
      rw [sound.rowOk here, Result.okBind, detached] at failed
      cases failed

/- What holds of the graph after any operations, whichever of them were refused. A new node gets a number above
those of all nodes that there ever were, and later ones get higher numbers. -/
theorem representationKept (ops : List (Operation R)) :
    (∀ n, n ∈ (after ops).nodes ↔ n ∈ (after ops).adjacency.keys) ∧ (after ops).Sound ∧
      (after ops).Roles ∧
      (∀ a b, b ∈ (after ops).adjacent a → a ∈ (after ops).nodes ∧ b ∈ (after ops).nodes) ∧
      (∀ n ∈ (after ops).cliffords.keys, n ∈ (after ops).nodes) ∧
      (∀ a b x, (after ops).addEdge a b = .error x ∨ (after ops).removeEdge a b = .error x ∨
        (after ops).removeNode a = .error x → x ≠ .keyAbsent) ∧
      ∃ n, (Edit.addNode.apply (after ops)).1 = .ok n ∧ n ∈ (after (ops ++ [.addNode])).nodes ∧
        (∀ before, before <+: ops → ∀ m ∈ (after before).nodes, m < n) ∧
        ∀ later m, (Edit.addNode.apply (after (ops ++ .addNode :: later))).1 = .ok m → n < m := by
  have sound : ∀ ops : List (Operation R), (after ops).Sound := fun ops => reachableSound ⟨ops, rfl⟩
  have roles := reachableRoles (g := after ops) ⟨ops, rfl⟩
  have added : after (ops ++ [.addNode]) = (after ops).addNode.2 := List.foldl_concat ..
  refine ⟨(sound ops).keyed, sound ops, roles, fun a b near => ?_, fun n mem => ?_,
    fun a b x => (sound ops).rowsRead, (after ops).next, rfl, ?_, fun before earlier m mem => ?_, ?_⟩
  · exact ⟨(sound ops).ownerThere near, (sound ops).neighborThere near⟩
  · exact (roles.cliffordsHeld n mem).elim ((sound ops).inputsThere n) ((sound ops).outputsThere n)
  · rw [added]
    exact addNodeNodes.mpr (.inl rfl)
  · exact Int.lt_of_lt_of_le ((sound before).numbered m mem) (counterGrows earlier)
  · intro later m given
    cases given
    have counted : (after (ops ++ [.addNode])).next = (after ops).next + 1 := by
      rw [added]
      rfl
    have earlier : ops ++ [.addNode] <+: ops ++ .addNode :: later := ⟨later, by simp⟩
    have grown := counterGrows earlier
    show (after ops).next < (after (ops ++ .addNode :: later)).next
    omega

end Graph
end OneWay
