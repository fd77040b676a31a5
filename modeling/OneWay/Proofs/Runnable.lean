import OneWay.Pattern.Runnable
import OneWay.Proofs.Compile

/-! Which compiled patterns pass the check for runnable ones. Nothing in a compiled pattern acts on a
measured or an unprepared node. But dependants are measured after the node they depend on, where the
check wants them before it, and the outputs that had to be prepared are taken for nodes to be measured:
so a compiled pattern passes just when no measured node has dependants and every output is an input. -/
namespace OneWay

def Command.targets {R : Type} : Command R → List Int
  | .prepare n | .measure n _ | .correctX n | .correctZ n => [n]
  | .entangle a b => [a, b]
  | .unknown => []

namespace Pattern
variable {R : Type} {frame : Frame} {s outputs : NodeSet} {first rest : List (Command R)} {n : Int}

def noted (s : NodeSet) (ns : List Int) : NodeSet := ns.foldl (fun s n => s.insert n) s

theorem memNoted {ns : List Int} : n ∈ noted s ns ↔ n ∈ s ∨ n ∈ ns := by
  induction ns generalizing s with
  | nil => simp [noted]
  | cons k ns ih =>
    have step : noted s (k :: ns) = noted (s.insert k) ns := rfl
    rw [step, ih, NodeSet.memInsert, List.mem_cons]
    constructor
    · intro h
      rcases h with (h | h) | h <;> simp [h]
    · intro h
      rcases h with h | h | h <;> simp [h]

def Measures (ns : List Int) (commands : List (Command R)) : Prop :=
  List.Forall₂ (fun n c => ∃ basis, c = .measure n basis) ns commands

theorem dependantsSkip (quiet : ∀ c ∈ first, ∀ n basis, c ≠ .measure n basis) :
    dependantsMeasured frame s (first ++ rest) = dependantsMeasured frame s rest := by
  induction first with
  | nil => rfl
  | cons c first ih =>
    have tail := ih fun c' mem => quiet c' (List.mem_cons_of_mem _ mem)
    cases c with
    | measure n basis => exact absurd rfl (quiet (.measure n basis) (by simp) n basis)
    | _ => exact tail

theorem dependantsMeasures {ns : List Int} (measures : Measures ns first)
    (apart : ∀ n ∈ ns, ∀ m ∈ frame.children n, m ∉ s)
    (later : ns.Pairwise fun a b => a ∉ frame.children b)
    (quiet : ∀ c ∈ rest, ∀ n basis, c ≠ .measure n basis) :
    dependantsMeasured frame s (first ++ rest) = .ok () ↔ ∀ n ∈ ns, frame.children n = ∅ := by
  induction measures generalizing s with
  | nil =>
    have skip : dependantsMeasured frame s (rest ++ []) = dependantsMeasured frame s [] :=
      dependantsSkip quiet
    rw [List.append_nil] at skip
    simp [skip, dependantsMeasured]
  | @cons n c ns first head tail ih =>
    obtain ⟨basis, rfl⟩ := head
    obtain ⟨ahead, later⟩ := List.pairwise_cons.mp later
    have alone : (frame.children n).diff (s.insert n) = frame.children n := by
      refine NodeSet.eqOfMem fun m => ?_
      simp only [NodeSet.memDiff, NodeSet.memInsert, not_or]
      constructor
      · exact fun h => h.1
      · intro mem
        have other : m ≠ n := (NodeSet.memErase.mp mem).2
        exact ⟨mem, other, apart n (by simp) m mem⟩
    rw [List.cons_append, dependantsMeasured]
    simp only [alone, List.forall_mem_cons]
    by_cases empty : frame.children n = ∅
    · rw [if_pos (NodeSet.isEmptyIffEq.mpr empty), ih ?_ later]
      · simp [empty]
      · intro k mem m child
        rw [NodeSet.memInsert, not_or]
        have notHere : m ≠ n := fun eq => ahead k mem (eq ▸ child)
        exact ⟨notHere, apart k (List.mem_cons_of_mem _ mem) m child⟩
    · rw [if_neg fun h => empty (NodeSet.isEmptyIffEq.mp h)]
      simp [empty]

theorem measuredSkip (quiet : ∀ c ∈ first, c ≠ .unknown ∧ (∀ n basis, c ≠ .measure n basis) ∧
    ∀ n ∈ c.targets, n ∉ s) :
    measuredUntouched s (first ++ rest) = measuredUntouched s rest := by
  induction first with
  | nil => rfl
  | cons c first ih =>
    have tail := ih fun c' mem => quiet c' (List.mem_cons_of_mem _ mem)
    obtain ⟨known, notMeasure, free⟩ := quiet c (by simp)
    rw [List.cons_append]
    cases c with
    | measure n basis => exact absurd rfl (notMeasure n basis)
    | unknown => exact absurd rfl known
    | entangle a b =>
      have freeA := free a (by simp [Command.targets])
      have freeB := free b (by simp [Command.targets])
      simp [measuredUntouched, freeA, freeB, tail]
    | prepare n | correctX n | correctZ n =>
      have freeN := free n (by simp [Command.targets])
      simp [measuredUntouched, freeN, tail]

theorem measuredMeasures {ns : List Int} (measures : Measures ns first) (once : ns.Nodup)
    (free : ∀ n ∈ ns, n ∉ s) :
    measuredUntouched s (first ++ rest) = measuredUntouched (noted s ns) rest := by
  induction measures generalizing s with
  | nil => rfl
  | @cons n c ns first head tail ih =>
    obtain ⟨basis, rfl⟩ := head
    obtain ⟨new, once⟩ := List.nodup_cons.mp once
    have freeN := free n (by simp)
    rw [List.cons_append, measuredUntouched, if_neg freeN, ih once]
    · rfl
    · intro k mem
      rw [NodeSet.memInsert, not_or]
      have other : k ≠ n := fun eq => new (eq ▸ mem)
      exact ⟨other, free k (List.mem_cons_of_mem _ mem)⟩

theorem preparedPrepare {ns : List Int} :
    unpreparedUntouched s (ns.map Command.prepare ++ rest) = unpreparedUntouched (noted s ns) rest := by
  induction ns generalizing s with
  | nil => rfl
  | cons n ns ih => exact ih

theorem preparedSkip (quiet : ∀ c ∈ first, (∀ n, c ≠ .prepare n) ∧ ∀ n ∈ c.targets, n ∈ s) :
    unpreparedUntouched s (first ++ rest) = unpreparedUntouched s rest := by
  induction first with
  | nil => rfl
  | cons c first ih =>
    have tail := ih fun c' mem => quiet c' (List.mem_cons_of_mem _ mem)
    obtain ⟨notPrepare, ready⟩ := quiet c (by simp)
    rw [List.cons_append]
    cases c with
    | prepare n => exact absurd rfl (notPrepare n)
    | unknown => exact tail
    | entangle a b =>
      have readyA := ready a (by simp [Command.targets])
      have readyB := ready b (by simp [Command.targets])
      simp [unpreparedUntouched, readyA, readyB, tail]
    | measure n _ | correctX n | correctZ n =>
      have readyN := ready n (by simp [Command.targets])
      simp [unpreparedUntouched, readyN, tail]

theorem measuredNodesSkip (quiet : ∀ c ∈ first, ∀ n basis, c ≠ .measure n basis) :
    measuredNodes outputs s (first ++ rest) = measuredNodes outputs s rest := by
  induction first with
  | nil => rfl
  | cons c first ih =>
    have tail := ih fun c' mem => quiet c' (List.mem_cons_of_mem _ mem)
    cases c with
    | measure n basis => exact absurd rfl (quiet (.measure n basis) (by simp) n basis)
    | _ => exact tail

theorem measuredNodesMeasures {ns : List Int} (measures : Measures ns first)
    (inner : ∀ n ∈ ns, n ∉ outputs) :
    measuredNodes outputs s (first ++ rest) = measuredNodes outputs (noted s ns) rest := by
  induction measures generalizing s with
  | nil => rfl
  | @cons n c ns first head tail ih =>
    obtain ⟨basis, rfl⟩ := head
    rw [List.cons_append, measuredNodes, if_neg (inner n (by simp)),
      ih fun k mem => inner k (List.mem_cons_of_mem _ mem)]
    rfl

theorem memPreparedNodes : n ∈ preparedNodes first ↔ Command.prepare n ∈ first := by
  rw [preparedNodes, NodeSet.memOfList, List.mem_filterMap]
  constructor
  · intro given
    obtain ⟨c, mem, eq⟩ := given
    cases c with
    | prepare k =>
      cases eq
      exact mem
    | _ => cases eq
  · exact fun mem => ⟨.prepare n, mem, rfl⟩

theorem checkConsistentOk {p : Pattern R} : p.checkConsistent = .ok () ↔
    measuredNodes (.ofList p.outputs.keys) ∅ p.commands = .ok ((preparedNodes p.commands).union
      ((NodeSet.ofList p.inputs.keys).diff (.ofList p.outputs.keys))) := by
  unfold checkConsistent
  rw [Result.bindOk]
  constructor
  · intro given
    obtain ⟨set, found, rest⟩ := given
    rw [found]
    split at rest
    · exact absurd rest (by rw [Result.throwOk]; exact id)
    · rename_i same
      rw [Decidable.not_not.mp same]
  · intro found
    exact ⟨_, found, by rw [if_neg (by simp)]; rfl⟩

end Pattern

namespace Graph
open Pattern
variable {R : Type} [Scalar R] {g : Graph R} {x z : Table NodeSet} {order : List Int}
  {measured : List (Command R)} {correct : Bool} {c : Command R} {n : Int}

def opening (g : Graph R) : List (Command R) :=
  (g.nodes.diff g.inputNodes).toList.map Command.prepare ++
    g.edges.map fun e => Command.entangle e.1 e.2

def closing (g : Graph R) (correctOutputs : Bool) : List (Command R) :=
  if correctOutputs then g.corrections else []

theorem assembleCommands :
    (g.assemble x z measured correct).commands = g.opening ++ (measured ++ g.closing correct) :=
  List.append_assoc _ _ _

theorem memOpening : c ∈ g.opening ↔
    (∃ n, c = .prepare n ∧ n ∈ g.nodes ∧ n ∉ g.inputs.keys) ∨
      ∃ a b, c = .entangle a b ∧ (a, b) ∈ g.edges := by
  have prepared : ∀ n, n ∈ (g.nodes.diff g.inputNodes).toList ↔
      n ∈ g.nodes ∧ n ∉ g.inputs.keys := by
    intro n
    rw [← NodeSet.memDef]
    simp
  simp only [opening, List.mem_append, List.mem_map, prepared, Prod.exists]
  constructor
  · intro h
    rcases h with ⟨n, mem, rfl⟩ | ⟨a, b, mem, rfl⟩
    · exact .inl ⟨n, rfl, mem⟩
    · exact .inr ⟨a, b, rfl, mem⟩
  · intro h
    rcases h with ⟨n, rfl, mem⟩ | ⟨a, b, rfl, mem⟩
    · exact .inl ⟨n, mem, rfl⟩
    · exact .inr ⟨a, b, mem, rfl⟩

theorem memClosing (mem : c ∈ g.closing correct) :
    ∃ n ∈ g.outputs.keys, c = .correctX n ∨ c = .correctZ n := by
  unfold closing at mem
  split at mem
  · rcases List.mem_append.mp mem with mem | mem
    · obtain ⟨n, output, rfl⟩ := List.mem_map.mp mem
      exact ⟨n, output, .inl rfl⟩
    · obtain ⟨n, output, rfl⟩ := List.mem_map.mp mem
      exact ⟨n, output, .inr rfl⟩
  · cases mem

theorem openingQuiet (mem : c ∈ g.opening) (n : Int) (basis : Basis R) : c ≠ .measure n basis := by
  rcases memOpening.mp mem with ⟨_, rfl, _⟩ | ⟨_, _, rfl, _⟩ <;> exact nofun

theorem closingQuiet (mem : c ∈ g.closing correct) (n : Int) (basis : Basis R) :
    c ≠ .measure n basis := by
  obtain ⟨_, _, rfl | rfl⟩ := memClosing mem <;> exact nofun

theorem Compiled.measuresOrder (parts : Compiled g x z order measured) :
    Measures (g.measuredOrder order) measured :=
  parts.measureEach.imp fun _ _ ⟨basis, _, eq⟩ => ⟨basis, eq⟩

theorem Compiled.checkDependants (parts : Compiled g x z order measured) (sound : g.Sound) :
    (g.assemble x z measured correct).checkDependants = .ok () ↔
      ∀ n ∈ g.innerNodes, (Frame.ofSets g.nodes x z).children n = ∅ := by
  have later : (g.measuredOrder order).Pairwise fun a b =>
      a ∉ (Frame.ofSets g.nodes x z).children b := by
    refine parts.measuredLater.imp_of_mem fun {a b} _ mem outside => ?_
    rw [parts.children ((parts.measuredMem sound).mp mem)]
    exact outside
  have quiet : ∀ c ∈ g.closing correct, ∀ n basis, c ≠ .measure n basis := fun c mem =>
    closingQuiet mem
  have run := dependantsMeasures (s := ∅) parts.measuresOrder (by simp) later quiet
  rw [Pattern.checkDependants, assembleCommands, dependantsSkip fun c mem => openingQuiet mem]
  refine run.trans ⟨fun all n inner => ?_, fun all n mem => ?_⟩
  · exact all n ((parts.measuredMem sound).mpr inner)
  · exact all n ((parts.measuredMem sound).mp mem)

theorem Compiled.checkMeasured (parts : Compiled g x z order measured) (sound : g.Sound) :
    (g.assemble x z measured correct).checkMeasured = .ok () := by
  have skip : ∀ c ∈ g.opening, c ≠ .unknown ∧ (∀ n basis, c ≠ .measure n basis) ∧
      ∀ n ∈ c.targets, n ∉ (∅ : NodeSet) := by
    intro c mem
    refine ⟨?_, openingQuiet mem, by simp⟩
    rcases memOpening.mp mem with ⟨_, rfl, _⟩ | ⟨_, _, rfl, _⟩ <;> exact nofun
  have last : ∀ c ∈ g.closing correct, c ≠ .unknown ∧ (∀ n basis, c ≠ .measure n basis) ∧
      ∀ n ∈ c.targets, n ∉ noted ∅ (g.measuredOrder order) := by
    intro c mem
    obtain ⟨n, output, kind⟩ := memClosing mem
    have free : n ∉ noted ∅ (g.measuredOrder order) := by
      rw [memNoted, parts.measuredMem sound]
      simp [output]
    refine ⟨?_, closingQuiet mem, ?_⟩
    · rcases kind with rfl | rfl <;> exact nofun
    · rcases kind with rfl | rfl <;> simpa [Command.targets] using free
  have done : measuredUntouched (noted ∅ (g.measuredOrder order)) (g.closing correct ++ []) = .ok () :=
    measuredSkip last
  rw [List.append_nil] at done
  rw [Pattern.checkMeasured, assembleCommands, measuredSkip skip,
    measuredMeasures parts.measuresOrder parts.measuredNodup (by simp), done]

theorem Compiled.checkPrepared (parts : Compiled g x z order measured) (sound : g.Sound) :
    (g.assemble x z measured correct).checkPrepared = .ok () := by
  have ready : ∀ n, n ∈ g.nodes →
      n ∈ noted (.ofList g.inputs.keys) (g.nodes.diff g.inputNodes).toList := by
    intro n here
    rw [memNoted, ← NodeSet.memDef]
    by_cases input : n ∈ g.inputs.keys
    · simp [input]
    · simp [here, input]
  have quiet : ∀ c ∈ (g.edges.map fun e => Command.entangle e.1 e.2) ++ (measured ++ g.closing correct),
      (∀ n, c ≠ .prepare n) ∧ ∀ n ∈ c.targets,
        n ∈ noted (.ofList g.inputs.keys) (g.nodes.diff g.inputNodes).toList := by
    intro c mem
    simp only [List.mem_append] at mem
    rcases mem with mem | mem | mem
    · obtain ⟨e, edge, rfl⟩ := List.mem_map.mp mem
      obtain ⟨hereA, hereB⟩ := sound.edgeThere edge
      refine ⟨fun _ => nofun, ?_⟩
      simpa [Command.targets] using ⟨ready _ hereA, ready _ hereB⟩
    · obtain ⟨n, listed, basis, _, rfl⟩ := Result.memSource parts.measureEach mem
      have here := (memInnerNodes.mp ((parts.measuredMem sound).mp listed)).1
      refine ⟨fun _ => nofun, ?_⟩
      simpa [Command.targets] using ready n here
    · obtain ⟨n, output, kind⟩ := memClosing mem
      have here := ready n (sound.outputsThere n output)
      rcases kind with rfl | rfl
      · exact ⟨fun _ => nofun, by simpa [Command.targets] using here⟩
      · exact ⟨fun _ => nofun, by simpa [Command.targets] using here⟩
  have done : unpreparedUntouched (noted (.ofList g.inputs.keys) (g.nodes.diff g.inputNodes).toList)
      ((g.edges.map fun e => Command.entangle e.1 e.2) ++ (measured ++ g.closing correct) ++ []) =
      .ok () := preparedSkip quiet
  rw [List.append_nil] at done
  rw [Pattern.checkPrepared, assembleCommands, opening, List.append_assoc]
  exact preparedPrepare.trans done

theorem Compiled.measuredSet (parts : Compiled g x z order measured) (sound : g.Sound) :
    measuredNodes (.ofList g.outputs.keys) ∅ (g.assemble x z measured correct).commands =
      .ok g.innerNodes := by
  have inner : ∀ n ∈ g.measuredOrder order, n ∉ NodeSet.ofList g.outputs.keys := by
    intro n mem
    have outside := (memInnerNodes.mp ((parts.measuredMem sound).mp mem)).2
    simpa using outside
  have quiet : ∀ c ∈ g.closing correct, ∀ n basis, c ≠ .measure n basis := fun c mem =>
    closingQuiet mem
  have last : measuredNodes (.ofList g.outputs.keys) (noted ∅ (g.measuredOrder order))
      (g.closing correct ++ []) = .ok (noted ∅ (g.measuredOrder order)) := measuredNodesSkip quiet
  have all : noted ∅ (g.measuredOrder order) = g.innerNodes := by
    refine NodeSet.eqOfMem fun n => ?_
    rw [memNoted, parts.measuredMem sound]
    simp
  rw [List.append_nil, all] at last
  rw [assembleCommands, measuredNodesSkip fun c mem => openingQuiet mem,
    measuredNodesMeasures parts.measuresOrder inner, all, last]

theorem Compiled.preparedSet (parts : Compiled g x z order measured) :
    n ∈ preparedNodes (g.assemble x z measured correct).commands ↔
      n ∈ g.nodes ∧ n ∉ g.inputs.keys := by
  rw [memPreparedNodes, assembleCommands, List.mem_append, List.mem_append, memOpening]
  constructor
  · intro mem
    rcases mem with (⟨k, eq, here⟩ | ⟨_, _, eq, _⟩) | mem | mem
    · cases eq
      exact here
    · cases eq
    · obtain ⟨_, _, _, _, eq⟩ := Result.memSource parts.measureEach mem
      cases eq
    · obtain ⟨_, _, eq | eq⟩ := memClosing mem <;> cases eq
  · intro here
    exact .inl (.inl ⟨n, rfl, here⟩)

theorem Compiled.checkConsistent (parts : Compiled g x z order measured) (sound : g.Sound) :
    (g.assemble x z measured correct).checkConsistent = .ok () ↔
      ∀ n ∈ g.outputNodes, n ∈ g.inputNodes := by
  have required : g.innerNodes = (preparedNodes (g.assemble x z measured correct).commands).union
      ((NodeSet.ofList g.inputs.keys).diff (.ofList g.outputs.keys)) ↔
      ∀ n ∈ g.outputNodes, n ∈ g.inputNodes := by
    constructor
    · intro same n output
      have outside : n ∉ g.innerNodes := fun mem => (memInnerNodes.mp mem).2 (memOutputNodes.mp output)
      rw [same, NodeSet.memUnion, not_or, parts.preparedSet] at outside
      have here := sound.outputsThere n (memOutputNodes.mp output)
      by_contra notInput
      exact outside.1 ⟨here, fun input => notInput (memInputNodes.mpr input)⟩
    · intro all
      refine NodeSet.eqOfMem fun n => ?_
      have input : n ∈ g.outputs.keys → n ∈ g.inputs.keys := fun output =>
        memInputNodes.mp (all n (memOutputNodes.mpr output))
      have here : n ∈ g.inputs.keys → n ∈ g.nodes := sound.inputsThere n
      rw [NodeSet.memUnion, parts.preparedSet, NodeSet.memDiff, NodeSet.memOfList, NodeSet.memOfList,
        memInnerNodes]
      constructor
      · intro given
        obtain ⟨there, inner⟩ := given
        by_cases isInput : n ∈ g.inputs.keys
        · exact .inr ⟨isInput, inner⟩
        · exact .inl ⟨there, isInput⟩
      · intro mem
        rcases mem with ⟨there, notInput⟩ | ⟨isInput, inner⟩
        · exact ⟨there, fun output => notInput (input output)⟩
        · exact ⟨here isInput, inner⟩
  rw [← required]
  rw [checkConsistentOk]
  change measuredNodes (.ofList g.outputs.keys) ∅ (g.assemble x z measured correct).commands = _ ↔ _
  rw [parts.measuredSet sound, Except.ok.injEq]
  rfl

theorem compiledRunnableIff {xflow : Flow} {zflow : Option Flow} {p : Pattern R} (reach : g.Reachable)
    (ok : g.compile xflow zflow none correct = .ok p) :
    p.checkMeasured = .ok () ∧ p.checkPrepared = .ok () ∧
      (p.checkDependants = .ok () ↔ ∀ n ∈ g.innerNodes, p.frame.children n = ∅) ∧
      (p.checkConsistent = .ok () ↔ ∀ n ∈ g.outputNodes, n ∈ g.inputNodes) ∧
      (p.checkRunnable = .ok () ↔ (∀ n ∈ g.innerNodes, p.frame.children n = ∅) ∧
        ∀ n ∈ g.outputNodes, n ∈ g.inputNodes) := by
  have sound := reachableSound reach
  obtain ⟨_, x, z, order, measured, _, _, _, parts, rfl⟩ := compileOk.mp ok
  have untouched : (g.assemble x z measured correct).checkMeasured = .ok () := parts.checkMeasured sound
  have prepared : (g.assemble x z measured correct).checkPrepared = .ok () := parts.checkPrepared sound
  have dependants : (g.assemble x z measured correct).checkDependants = .ok () ↔
      ∀ n ∈ g.innerNodes, (g.assemble x z measured correct).frame.children n = ∅ :=
    parts.checkDependants sound
  have consistent : (g.assemble x z measured correct).checkConsistent = .ok () ↔
      ∀ n ∈ g.outputNodes, n ∈ g.inputNodes := parts.checkConsistent sound
  refine ⟨untouched, prepared, dependants, consistent, ?_⟩
  rw [← dependants, ← consistent]
  unfold checkRunnable
  simp only [Result.bindOk, untouched, prepared, true_and]
  constructor
  · intro given
    obtain ⟨_, first, _, _, last⟩ := given
    exact ⟨first, last⟩
  · intro given
    obtain ⟨first, last⟩ := given
    exact ⟨(), first, (), (), last⟩

def spider : Graph Float := after [.addNode, .registerInput 0, .registerOutput 0 0, .addNode,
  .addEdge 0 1, .assignBasis 1 (.axial .y .plus)]

theorem spiderRunnable : spider.Reachable ∧
    ∃ p, spider.compile ∅ none none true = .ok p ∧ p.checkRunnable = .ok () := by
  have reach : spider.Reachable := ⟨_, rfl⟩
  obtain ⟨p, ok⟩ : ∃ p, spider.compile ∅ none none true = .ok p := ⟨_, rfl⟩
  have idle : ∀ n ∈ spider.innerNodes, p.frame.children n = ∅ := by
    cases ok
    decide
  have outputs : ∀ n ∈ spider.outputNodes, n ∈ spider.inputNodes := by decide
  exact ⟨reach, p, ok, (compiledRunnableIff reach ok).2.2.2.2.mpr ⟨idle, outputs⟩⟩

def wire : Graph Float := after [.addNode, .addNode, .addEdge 0 1, .registerInput 0,
  .registerOutput 1 0, .assignBasis 0 (.axial .x .plus)]

theorem wireRefused : wire.Reachable ∧
    (∃ p, wire.compile (.ofSets (.ofList [(0, .singleton 1)])) none none true = .ok p ∧
      p.checkRunnable = .error (.unmeasuredDependants (.singleton 1))) ∧
    ∃ p, wire.compile ∅ none none true = .ok p ∧
      p.checkRunnable = .error (.measurementsMissing (.singleton 1)) :=
  ⟨⟨_, rfl⟩, ⟨_, rfl, rfl⟩, ⟨_, rfl, rfl⟩⟩

end Graph
end OneWay
