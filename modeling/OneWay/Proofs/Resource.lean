import OneWay.Proofs.Contents

/-! What a pattern compiled without a schedule is made of: a preparation for every node that is no
input, an entanglement for every edge, a measurement for every node that is no output and, if asked for,
two corrections for every output, each once. Nothing acts on a node before it is prepared or after it is
measured, nodes are measured before those that depend on them, and all nodes are live at once when the
last one is prepared. -/
namespace OneWay

theorem NodeSet.sizeDiff {s : NodeSet} {ks : List Int} (once : ks.Nodup) (inside : ∀ n ∈ ks, n ∈ s) :
    (s.diff (.ofList ks)).size + ks.length = s.size := by
  have same : ((s.diff (.ofList ks)).toList ++ ks).Perm s.toList := by
    have apart : ∀ n ∈ (s.diff (.ofList ks)).toList, n ∉ ks := by
      intro n mem
      simpa using (memDiff.mp (memDef.mpr mem)).2
    refine (List.perm_ext_iff_of_nodup ?_ s.nodup).mpr fun n => ?_
    · exact List.nodup_append.mpr ⟨NodeSet.nodup _, once, fun a mem b here eq => apart a mem (eq ▸ here)⟩
    · rw [List.mem_append, ← memDef, ← memDef, memDiff, memOfList]
      by_cases here : n ∈ ks
      · simp [here, inside n here]
      · simp [here]
  rw [size, size, ← List.length_append, same.length_eq]

theorem Table.sizeKeys {α : Type} {t : Table α} : t.size = t.keys.length := (List.length_map _).symm

theorem eitherOrder {α : Type} {a b : α} {xs : List α} (left : a ∈ xs) (right : b ∈ xs) (other : a ≠ b) :
    List.Sublist [a, b] xs ∨ List.Sublist [b, a] xs := by
  induction xs with
  | nil => cases left
  | cons x xs ih =>
    rcases List.mem_cons.mp left with rfl | laterA
    · have laterB := (List.mem_cons.mp right).resolve_left other.symm
      exact .inl ((List.singleton_sublist.mpr laterB).cons_cons a)
    · rcases List.mem_cons.mp right with rfl | laterB
      · exact .inr ((List.singleton_sublist.mpr laterA).cons_cons b)
      · exact (ih laterA laterB).imp (.cons x) (.cons x)

namespace Graph
open Command Pattern
variable {R : Type} [Scalar R] {g : Graph R} {x z : Table NodeSet} {order : List Int}
  {measured : List (Command R)} {correct : Bool} {n : Int}

def IsEdge (g : Graph R) (e : Sym2 Int) : Prop := ∃ a b, e = s(a, b) ∧ b ∈ g.adjacent a

theorem Sound.isEdgeIff (sound : g.Sound) {a b : Int} : g.IsEdge s(a, b) ↔ b ∈ g.adjacent a := by
  constructor
  · rintro ⟨a', b', same, near⟩
    rcases Sym2.eq_iff.mp same with ⟨rfl, rfl⟩ | ⟨rfl, rfl⟩
    · exact near
    · exact sound.joined _ _ near
  · exact fun near => ⟨a, b, rfl, near⟩

theorem Sound.edgesOnce (sound : g.Sound) : Once (g.edges.map fun e => s(e.1, e.2)) g.IsEdge := by
  constructor
  · refine edgesNodup.map_on fun e mem e' mem' same => ?_
    have up := (memEdges.mp mem).2
    have up' := (memEdges.mp mem').2
    rcases Sym2.eq_iff.mp same with ⟨first, second⟩ | ⟨first, second⟩
    · exact Prod.ext first second
    · omega
  · intro e
    induction e with
    | h a b =>
      rw [sound.isEdgeIff, List.mem_map]
      constructor
      · rintro ⟨e, mem, same⟩
        have near := (memEdges.mp mem).1
        exact sound.isEdgeIff.mp ⟨e.1, e.2, same.symm, near⟩
      · intro near
        rcases Int.lt_trichotomy a b with up | rfl | down
        · exact ⟨(a, b), memEdges.mpr ⟨near, up⟩, rfl⟩
        · exact absurd near (sound.loopless a)
        · exact ⟨(b, a), memEdges.mpr ⟨sound.joined a b near, down⟩, Sym2.eq_swap⟩

structure Builds (g : Graph R) (edge : Sym2 Int → Prop) (correct : Bool)
    (commands : List (Command R)) : Prop where
  prepared : Once (commands.filterMap prepared?) (fun n => n ∈ g.nodes ∧ n ∉ g.inputNodes)
  entangled : Once (commands.filterMap entangled?) edge
  measured : Once ((commands.filterMap measured?).map Prod.fst)
    (fun n => n ∈ g.nodes ∧ n ∉ g.outputNodes)
  based : ∀ m ∈ commands.filterMap measured?, g.bases.get? m.1 = some m.2
  correctedX : Once (commands.filterMap correctedX?) (fun n => correct = true ∧ n ∈ g.outputNodes)
  correctedZ : Once (commands.filterMap correctedZ?) (fun n => correct = true ∧ n ∈ g.outputNodes)

theorem Builds.measurements {edge : Sym2 Int → Prop} {commands : List (Command R)}
    (builds : Builds g edge correct commands) : Once (commands.filterMap measured?)
      (fun m => (m.1 ∈ g.nodes ∧ m.1 ∉ g.outputNodes) ∧ g.bases.get? m.1 = some m.2) := by
  refine ⟨builds.measured.1.of_map, fun m => ⟨fun mem => ?_, fun given => ?_⟩⟩
  · exact ⟨(builds.measured.2 m.1).mp (List.mem_map_of_mem mem), builds.based m mem⟩
  · obtain ⟨other, mem, same⟩ := List.mem_map.mp ((builds.measured.2 m.1).mpr given.1)
    have basis := builds.based other mem
    rw [same, given.2, Option.some.injEq] at basis
    rwa [show m = other from Prod.ext same.symm basis]

theorem closingContents (g : Graph R) (correct : Bool) :
    (g.closing correct).filterMap prepared? = [] ∧ (g.closing correct).filterMap entangled? = [] ∧
      (g.closing correct).filterMap measured? = [] ∧
      (g.closing correct).filterMap correctedX? = (if correct then g.outputs.keys else []) ∧
      (g.closing correct).filterMap correctedZ? = (if correct then g.outputs.keys else []) := by
  cases correct <;>
    simp [closing, corrections, List.filterMap_map, Function.comp_def, prepared?, entangled?, measured?,
      correctedX?, correctedZ?]

theorem closingOnce (g : Graph R) (correct : Bool) : Once (if correct then g.outputs.keys else [])
    (fun n => correct = true ∧ n ∈ g.outputNodes) := by
  cases correct with
  | false => exact ⟨.nil, by simp⟩
  | true => exact ⟨g.outputs.distinct, by simp⟩

theorem Compiled.contents (parts : Compiled g x z order measured) (correct : Bool) :
    (g.assemble x z measured correct).commands.filterMap prepared? =
        (g.nodes.diff g.inputNodes).toList ∧
      (g.assemble x z measured correct).commands.filterMap entangled? =
        (g.edges.map fun e => s(e.1, e.2)) ∧
      ((g.assemble x z measured correct).commands.filterMap measured?).map Prod.fst =
        g.measuredOrder order ∧
      (g.assemble x z measured correct).commands.filterMap correctedX? =
        (if correct then g.outputs.keys else []) ∧
      (g.assemble x z measured correct).commands.filterMap correctedZ? =
        (if correct then g.outputs.keys else []) := by
  obtain ⟨noN, noE, nodes, noX, noZ⟩ := parts.measuresOrder.contents
  rw [assembleCommands]
  simp only [List.filterMap_append, noN, noE, noX, noZ, List.map_append, nodes, closingContents]
  simp [opening, List.filterMap_map, Function.comp_def, prepared?, entangled?, measured?, correctedX?,
    correctedZ?]

theorem Compiled.bases (parts : Compiled g x z order measured) {n : Int} {basis : Basis R}
    (mem : (n, basis) ∈ (g.assemble x z measured correct).commands.filterMap measured?) :
    g.bases.get? n = some basis := by
  rw [memMeasured, assembleCommands, List.mem_append, List.mem_append] at mem
  rcases mem with early | here | late
  · exact absurd rfl (openingQuiet early n basis)
  · obtain ⟨_, _, _, found, eq⟩ := Result.memSource parts.measureEach here
    cases eq
    exact found
  · exact absurd rfl (closingQuiet late n basis)

theorem Compiled.builds (parts : Compiled g x z order measured) (sound : g.Sound) (correct : Bool) :
    Builds g g.IsEdge correct (g.assemble x z measured correct).commands := by
  obtain ⟨prepared, entangled, nodes, correctedX, correctedZ⟩ := parts.contents correct
  constructor
  · rw [prepared]
    exact ⟨NodeSet.nodup _, fun n => NodeSet.memDiff⟩
  · rw [entangled]
    exact sound.edgesOnce
  · rw [nodes]
    exact ⟨parts.measuredNodup, fun n => (parts.measuredMem sound).trans NodeSet.memDiff⟩
  · exact fun m => parts.bases
  · rw [correctedX]
    exact closingOnce g correct
  · rw [correctedZ]
    exact closingOnce g correct

theorem Compiled.live (parts : Compiled g x z order measured) (sound : g.Sound) :
    Along (fun before c => c ≠ .unknown ∧ (c.prepared? = none → ∀ n ∈ c.targets,
      (n ∈ g.inputNodes ∨ .prepare n ∈ before) ∧ ∀ basis, .measure n basis ∉ before))
      (g.assemble x z measured correct).commands := by
  have ready : Along _ (g.assemble x z measured correct).commands :=
    unpreparedUntouchedOk.mp (parts.checkPrepared sound)
  have free : Along _ (g.assemble x z measured correct).commands :=
    measuredUntouchedOk.mp (parts.checkMeasured sound)
  intro before c after split
  obtain ⟨known, untouched⟩ := free before c after split
  refine ⟨known, fun other n target => ⟨?_, (untouched n target).2⟩⟩
  exact ready before c after split other n target

theorem Compiled.childrenLater (parts : Compiled g x z order measured) (sound : g.Sound) {u v : Int}
    {a b : Basis R} (first : Command.measure u a ∈ (g.assemble x z measured correct).commands)
    (second : Command.measure v b ∈ (g.assemble x z measured correct).commands)
    (child : v ∈ (Frame.ofSets g.nodes x z).children u) :
    List.Sublist [.measure u a, .measure v b] (g.assemble x z measured correct).commands := by
  have other : u ≠ v := fun eq => (NodeSet.memErase.mp child).2 eq.symm
  have apart : Command.measure u a ≠ .measure v b := fun eq => other (Command.measure.inj eq).1
  -- In the other order the child would stand before its parent in the order of measurements.
  refine (eitherOrder first second apart).resolve_right fun wrong => ?_
  have nodes : List.Sublist [v, u] (g.measuredOrder order) := by
    rw [← (parts.contents correct).2.2.1]
    exact (wrong.filterMap measured?).map Prod.fst
  have inner : u ∈ g.innerNodes := (parts.measuredMem sound).mp (nodes.subset (by simp))
  rw [parts.children inner] at child
  exact List.pairwise_iff_forall_sublist.mp parts.measuredLater nodes child

theorem Sound.sizes (sound : g.Sound) :
    (g.nodes.diff g.inputNodes).size + g.inputs.size = g.nodes.size ∧
      g.innerNodes.size + g.outputs.size = g.nodes.size := by
  rw [Table.sizeKeys, Table.sizeKeys]
  exact ⟨NodeSet.sizeDiff g.inputs.distinct sound.inputsThere,
    NodeSet.sizeDiff g.outputs.distinct sound.outputsThere⟩

theorem Compiled.measuredLength (parts : Compiled g x z order measured) (sound : g.Sound) :
    (g.measuredOrder order).length = g.innerNodes.size :=
  ((List.perm_ext_iff_of_nodup parts.measuredNodup g.innerNodes.nodup).mpr fun _ =>
    parts.measuredMem sound).length_eq

theorem openingGrowth : growth g.opening = (g.nodes.diff g.inputNodes).size := by
  simp [growthCount, opening, List.filterMap_map, Function.comp_def, prepared?, measured?, NodeSet.size]

/- The space grows while nodes are prepared and only shrinks afterwards. -/
theorem Compiled.spaceBounds (parts : Compiled g x z order measured) (sound : g.Sound) :
    (g.assemble x z measured correct).space.head? = some (g.inputs.size : Int) ∧
      (g.assemble x z measured correct).space.getLast? = some (g.outputs.size : Int) ∧
      (g.assemble x z measured correct).maxSpace = g.nodes.size := by
  obtain ⟨prepared, _, nodes, _⟩ := parts.contents correct
  obtain ⟨inputs, outputs⟩ := sound.sizes
  have measurements : ((g.assemble x z measured correct).commands.filterMap measured?).length =
      g.innerNodes.size := by
    rw [← parts.measuredLength sound, ← nodes, List.length_map]
  refine ⟨spaceHead, ?_, maxSpaceEq ?_ ?_⟩
  · have total : (g.inputs.size : Int) + growth (g.assemble x z measured correct).commands =
        g.outputs.size := by
      rw [growthCount, prepared, measurements]
      simp only [NodeSet.size] at *
      omega
    rw [← total]
    exact spaceLast
  · refine memSpace.mpr ⟨g.opening, _, assembleCommands, ?_⟩
    rw [openingGrowth]
    show _ = (g.inputs.size : Int) + _
    omega
  · intro v mem
    obtain ⟨before, after, split, rfl⟩ := memSpace.mp mem
    have part : (before.filterMap prepared?).length ≤ (g.nodes.diff g.inputNodes).size := by
      rw [NodeSet.size, ← prepared, split, List.filterMap_append, List.length_append]
      exact Nat.le_add_right _ _
    rw [growthCount]
    show (g.inputs.size : Int) + _ ≤ _
    omega

theorem compiledResource {xflow : Flow} {zflow : Option Flow} {p : Pattern R} (reach : g.Reachable)
    (ok : g.compile xflow zflow none correct = .ok p) :
    Builds g g.IsEdge correct p.commands ∧
      Along (fun before c => c ≠ .unknown ∧ (c.prepared? = none → ∀ n ∈ c.targets,
        (n ∈ g.inputNodes ∨ .prepare n ∈ before) ∧ ∀ basis, .measure n basis ∉ before)) p.commands ∧
      (∀ u v a b, .measure u a ∈ p.commands → .measure v b ∈ p.commands → v ∈ p.frame.children u →
        List.Sublist [.measure u a, .measure v b] p.commands) ∧
      p.space.head? = some (g.inputs.size : Int) ∧ p.space.getLast? = some (g.outputs.size : Int) ∧
      p.maxSpace = g.nodes.size := by
  have sound := reachableSound reach
  obtain ⟨_, x, z, order, measured, _, _, _, parts, rfl⟩ := compileOk.mp ok
  exact ⟨parts.builds sound correct, parts.live sound, fun u v a b => parts.childrenLater sound,
    parts.spaceBounds sound⟩

def twig : Graph Float := after [.addNode, .addNode, .addNode, .addNode, .addEdge 0 1, .addEdge 1 2,
  .addEdge 1 3, .registerInput 0, .registerOutput 2 0, .assignBasis 0 (.axial .x .plus),
  .assignBasis 1 (.axial .x .minus), .assignBasis 3 (.axial .z .plus)]

def twigFlow : Flow := .ofSets (.ofList [(0, .singleton 1), (1, .singleton 2)])

set_option maxRecDepth 1024

theorem twigCompiles : ∃ p, twig.compile twigFlow none none true = .ok p := ⟨_, rfl⟩

theorem twigResource : twig.Reachable ∧ ∃ p, twig.compile twigFlow none none true = .ok p ∧
    Builds twig twig.IsEdge true p.commands ∧
    List.Sublist [.measure 0 (.axial .x .plus), .measure 3 (.axial .z .plus)] p.commands ∧
    p.space.getLast? = some 1 ∧ p.maxSpace = 4 := by
  have reach : twig.Reachable := ⟨_, rfl⟩
  obtain ⟨p, ok⟩ := twigCompiles
  obtain ⟨built, _, later, _, last, most⟩ := compiledResource reach ok
  have before : List.Sublist [.measure 0 (.axial .x .plus), .measure 3 (.axial .z .plus)] p.commands := by
    have first := (built.measurements.2 (0, .axial .x .plus)).mpr ⟨by decide, rfl⟩
    have second := (built.measurements.2 (3, .axial .z .plus)).mpr ⟨by decide, rfl⟩
    refine later 0 3 _ _ (memMeasured.mp first) (memMeasured.mp second) ?_
    cases ok
    decide
  exact ⟨reach, p, ok, built, before, last, most⟩

end Graph
end OneWay
