import OneWay.Proofs.Resource
import OneWay.Proofs.Times

/-! Patterns compiled with a schedule. A slot makes the edges from its measured nodes that are still
missing, measures, and then prepares. So all edges but those between two outputs are made, each once,
and a valid schedule leads to the preparations, measurements and corrections that the pattern without one
has. It is safe to run just when every measured node and all its neighbours are inputs or prepared in
an earlier slot, which a valid schedule need not grant. -/
namespace OneWay

def Schedule.Ahead (s : Schedule) (m n : Int) : Prop :=
  ∃ early late, s.prepare.get? m = some (some early) ∧ s.measure.get? n = some (some late) ∧ early < late

instance (s : Schedule) (m n : Int) : Decidable (s.Ahead m n) :=
  decidable_of_iff (∃ early ∈ (s.prepare.get? m).join, ∃ late ∈ (s.measure.get? n).join, early < late)
    (by simp [Schedule.Ahead, Option.join_eq_some_iff])

namespace Pattern
open Command
variable {R : Type} {made new : List (Int × Int)}

theorem notedAppend {s : NodeSet} {ns ms : List Int} : noted s (ns ++ ms) = noted (noted s ns) ms :=
  List.foldl_append

def bonds (made : List (Int × Int)) : List (Sym2 Int) := made.map fun e => s(e.1, e.2)

theorem memBonds {a b : Int} : s(a, b) ∈ bonds made ↔ (a, b) ∈ made ∨ (b, a) ∈ made := by
  simp only [bonds, List.mem_map, Sym2.eq_iff, Prod.exists]
  constructor
  · rintro ⟨c, d, mem, ⟨rfl, rfl⟩ | ⟨rfl, rfl⟩⟩
    · exact .inl mem
    · exact .inr mem
  · rintro (mem | mem)
    · exact ⟨a, b, mem, .inl ⟨rfl, rfl⟩⟩
    · exact ⟨b, a, mem, .inr ⟨rfl, rfl⟩⟩

theorem bondsAppend : bonds (made ++ new) = bonds made ++ bonds new := List.map_append

def slotCommands (new : List (Int × Int)) (measured : List (Command R)) (prepare : NodeSet) :
    List (Command R) :=
  (new.map fun e => Command.entangle e.1 e.2) ++ measured ++ prepare.toList.map Command.prepare

theorem slotContents (new : List (Int × Int)) (prepare : NodeSet) {ns : List Int}
    {measured : List (Command R)} (only : Measures ns measured) :
    (slotCommands new measured prepare).filterMap prepared? = prepare.toList ∧
      (slotCommands new measured prepare).filterMap entangled? = bonds new ∧
      ((slotCommands new measured prepare).filterMap measured?).map Prod.fst = ns ∧
      (slotCommands new measured prepare).filterMap correctedX? = [] ∧
      (slotCommands new measured prepare).filterMap correctedZ? = [] := by
  obtain ⟨noN, noE, nodes, noX, noZ⟩ := only.contents
  simp [slotCommands, bonds, noN, noE, nodes, noX, noZ, List.filterMap_map, Function.comp_def, prepared?,
    entangled?, measured?, correctedX?, correctedZ?]

end Pattern

namespace Graph
open Command Pattern Schedule
variable {R : Type} [Scalar R] {g : Graph R} {s : Schedule} {xflow : Flow} {zflow : Option Flow}
  {made new all : List (Int × Int)} {slots : List (NodeSet × NodeSet)} {commands : List (Command R)}
  {ns : List Int} {n : Int} {correct : Bool}

structure Entangles (g : Graph R) (ns : List Int) (made new : List (Int × Int)) : Prop where
  along : ∀ e ∈ new, e.1 ∈ ns ∧ e.2 ∈ g.adjacent e.1
  once : (bonds made).Nodup → (bonds (made ++ new)).Nodup
  covers : ∀ n ∈ ns, ∀ m ∈ g.adjacent n, s(n, m) ∈ bonds (made ++ new)

theorem entangleNodeOk (ok : g.entangleNode made n = .ok all) :
    ∃ new, all = made ++ new ∧ Entangles g [n] made new := by
  simp only [entangleNode, Result.bindOk, Result.pureOk, neighborsOk] at ok
  obtain ⟨_, ⟨_, _, rfl⟩, rfl⟩ := ok
  have fresh : ∀ m, m ∈ (g.adjacent n).toList.filter (fun m => (n, m) ∉ made ∧ (m, n) ∉ made) ↔
      m ∈ g.adjacent n ∧ s(n, m) ∉ bonds made := by
    intro m
    simp [memBonds, NodeSet.memDef]
  refine ⟨_, rfl, ?_, ?_, ?_⟩
  · intro e mem
    obtain ⟨m, kept, rfl⟩ := List.mem_map.mp mem
    exact ⟨by simp, ((fresh m).mp kept).1⟩
  · intro once
    rw [bondsAppend]
    refine List.nodup_append.mpr ⟨once, ?_, ?_⟩
    · rw [bonds, List.map_map]
      exact ((NodeSet.nodup _).filter _).map fun m m' same => Sym2.congr_right.mp same
    · intro e old e' late same
      obtain ⟨_, mem, rfl⟩ := List.mem_map.mp late
      obtain ⟨m, kept, rfl⟩ := List.mem_map.mp mem
      exact ((fresh m).mp kept).2 (same ▸ old)
  · intro k here m near
    obtain rfl := List.mem_singleton.mp here
    rw [bondsAppend, List.mem_append]
    by_cases old : s(k, m) ∈ bonds made
    · exact .inl old
    · exact .inr (memBonds.mpr (.inl (List.mem_map.mpr ⟨m, (fresh m).mpr ⟨near, old⟩, rfl⟩)))

theorem Entangles.append {ms : List Int} {more : List (Int × Int)} (one : Entangles g ns made new)
    (others : Entangles g ms (made ++ new) more) : Entangles g (ns ++ ms) made (new ++ more) where
  along e mem := by
    rcases List.mem_append.mp mem with early | late
    · exact ⟨List.mem_append_left _ (one.along e early).1, (one.along e early).2⟩
    · exact ⟨List.mem_append_right _ (others.along e late).1, (others.along e late).2⟩
  once fresh := by
    rw [← List.append_assoc]
    exact others.once (one.once fresh)
  covers n mem m near := by
    rw [← List.append_assoc]
    rcases List.mem_append.mp mem with early | late
    · rw [bondsAppend]
      exact List.mem_append_left _ (one.covers n early m near)
    · exact others.covers n late m near

theorem Entangles.bonds (entangles : Entangles g ns made new) (e : Sym2 Int) :
    e ∈ bonds (made ++ new) ↔ e ∈ bonds made ∨ ∃ n ∈ ns, ∃ m ∈ g.adjacent n, e = s(n, m) := by
  constructor
  · intro mem
    rw [bondsAppend, List.mem_append] at mem
    refine mem.imp_right fun late => ?_
    obtain ⟨pair, here, rfl⟩ := List.mem_map.mp late
    obtain ⟨source, near⟩ := entangles.along pair here
    exact ⟨pair.1, source, pair.2, near, rfl⟩
  · rintro (old | ⟨n, mem, m, near, rfl⟩)
    · rw [bondsAppend]
      exact List.mem_append_left _ old
    · exact entangles.covers n mem m near

theorem entangleNodesOk (ok : ns.foldlM g.entangleNode made = .ok all) :
    ∃ new, all = made ++ new ∧ Entangles g ns made new := by
  induction ns generalizing made with
  | nil =>
    rw [List.foldlM_nil, Result.pureOk] at ok
    exact ⟨[], by simp [ok], ⟨by simp, by simp, by simp⟩⟩
  | cons n ns ih =>
    rw [List.foldlM_cons, Result.bindOk] at ok
    obtain ⟨_, here, later⟩ := ok
    obtain ⟨first, rfl, one⟩ := entangleNodeOk here
    obtain ⟨more, rfl, others⟩ := ih later
    exact ⟨first ++ more, List.append_assoc _ _ _, one.append others⟩

def Based (g : Graph R) (ns : List Int) (measured : List (Command R)) : Prop :=
  List.Forall₂ (fun n c => ∃ basis, g.bases.get? n = some basis ∧ c = .measure n basis) ns measured

theorem Based.measures {measured : List (Command R)} (based : Based g ns measured) :
    Measures ns measured :=
  based.imp fun _ _ given => ⟨given.choose, given.choose_spec.2⟩

inductive Slots (g : Graph R) :
    List (Int × Int) → List (NodeSet × NodeSet) → List (Command R) → Prop where
  | nil {made : List (Int × Int)} : Slots g made [] []
  | cons {made new : List (Int × Int)} {prepare measure : NodeSet} {measured : List (Command R)}
      {slots : List (NodeSet × NodeSet)} {commands : List (Command R)}
      (entangles : Entangles g measure.toList made new) (based : Based g measure.toList measured)
      (rest : Slots g (made ++ new) slots commands) :
      Slots g made ((prepare, measure) :: slots) (slotCommands new measured prepare ++ commands)

theorem slotsOfScheduled (ok : g.scheduled made slots = .ok commands) : Slots g made slots commands := by
  induction slots generalizing made commands with
  | nil =>
    cases ok
    exact .nil
  | cons slot slots ih =>
    obtain ⟨prepare, measure⟩ := slot
    simp only [scheduled, slot, Result.bindOk, Result.pureOk, Result.mapMOk] at ok
    obtain ⟨⟨_, _⟩, ⟨all, entangled, measured, measures, eq⟩, rest, later, rfl⟩ := ok
    cases eq
    obtain ⟨new, rfl, entangles⟩ := entangleNodesOk entangled
    rw [List.drop_left]
    exact .cons entangles (measures.imp fun _ _ ok => measurementOk.mp ok) (ih later)

theorem Slots.contents (run : Slots g made slots commands) :
    commands.filterMap prepared? = (slots.flatMap fun slot => slot.1.toList) ∧
      (commands.filterMap measured?).map Prod.fst = (slots.flatMap fun slot => slot.2.toList) ∧
      commands.filterMap correctedX? = [] ∧ commands.filterMap correctedZ? = [] := by
  induction run with
  | nil => exact ⟨rfl, rfl, rfl, rfl⟩
  | @cons _ new prepare _ _ _ _ _ based _ ih =>
    obtain ⟨prepared, _, nodes, noX, noZ⟩ := slotContents new prepare based.measures
    simp only [List.filterMap_append, List.map_append, List.flatMap_cons, prepared, nodes, noX, noZ, ih,
      List.append_nil, and_self]

theorem Slots.bases (run : Slots g made slots commands) {basis : Basis R}
    (mem : (n, basis) ∈ commands.filterMap measured?) : g.bases.get? n = some basis := by
  rw [memMeasured] at mem
  induction run with
  | nil => cases mem
  | cons _ based _ ih =>
    simp only [slotCommands, List.mem_append] at mem
    rcases mem with ((edge | here) | prepared) | later
    · simp at edge
    · obtain ⟨_, _, _, found, eq⟩ := Result.memSource based here
      cases eq
      exact found
    · simp at prepared
    · exact ih later

theorem Slots.edges (run : Slots g made slots commands) (once : (bonds made).Nodup) :
    Once (bonds made ++ commands.filterMap entangled?) (fun e => e ∈ bonds made ∨
      ∃ slot ∈ slots, ∃ n ∈ slot.2, ∃ m ∈ g.adjacent n, e = s(n, m)) := by
  induction run with
  | nil => simpa [Once] using once
  | cons entangles based rest ih =>
    rw [List.filterMap_append, (slotContents _ _ based.measures).2.1, ← List.append_assoc, ← bondsAppend]
    refine (ih (entangles.once once)).congr fun e => ?_
    rw [entangles.bonds, List.exists_mem_cons_iff, or_assoc]
    rfl

def Ready (g : Graph R) : NodeSet → List (NodeSet × NodeSet) → Prop
  | _, [] => True
  | s, slot :: slots => (∀ n ∈ slot.2, ∀ m, m = n ∨ m ∈ g.adjacent n → m ∈ s) ∧
      Ready g (noted s slot.1.toList) slots

theorem slotReady {measure s : NodeSet} {measured : List (Command R)}
    (entangles : Entangles g measure.toList made new) (only : Measures measure.toList measured)
    (ends : ∀ e ∈ made, e.1 ∈ s ∧ e.2 ∈ s) :
    (∀ c ∈ (new.map fun e => Command.entangle e.1 e.2) ++ measured, ∀ n ∈ c.targets, n ∈ s) ↔
      ∀ n ∈ measure, ∀ m, m = n ∨ m ∈ g.adjacent n → m ∈ s := by
  have edges : (∀ c ∈ new.map fun e => (Command.entangle e.1 e.2 : Command R), ∀ n ∈ c.targets, n ∈ s) ↔
      ∀ e ∈ new, e.1 ∈ s ∧ e.2 ∈ s := by
    rw [List.forall_mem_map]
    simp [Command.targets]
  rw [List.forall_mem_append, only.targets, edges]
  constructor
  · rintro ⟨fresh, here⟩ n mem m (rfl | near)
    · exact here m mem
    · have both : ∀ e ∈ made ++ new, e.1 ∈ s ∧ e.2 ∈ s := List.forall_mem_append.mpr ⟨ends, fresh⟩
      -- An earlier slot may have made the edge, then from its other end.
      rcases memBonds.mp (entangles.covers n mem m near) with forth | back
      · exact (both _ forth).2
      · exact (both _ back).1
  · intro all
    constructor
    · intro e mem
      obtain ⟨source, near⟩ := entangles.along e mem
      exact ⟨all e.1 source e.1 (.inl rfl), all e.1 source e.2 (.inr near)⟩
    · exact fun n mem => all n mem n (.inl rfl)

/- Edges that were made before have their ends among the prepared nodes; so has every edge from a
measured node, whether an earlier slot or this one makes it. -/
theorem Slots.ready (run : Slots g made slots commands) {s : NodeSet} {last : List (Command R)}
    (ends : ∀ e ∈ made, e.1 ∈ s ∧ e.2 ∈ s) :
    unpreparedUntouched s (commands ++ last) = .ok () ↔ Ready g s slots ∧
      unpreparedUntouched (noted s (slots.flatMap fun slot => slot.1.toList)) last = .ok () := by
  induction run generalizing s with
  | nil => simp [Ready, noted]
  | @cons made new prepare measure measured slots commands entangles based rest ih =>
    have quiet : ∀ c ∈ (new.map fun e => Command.entangle e.1 e.2) ++ measured, c.prepared? = none :=
      List.forall_mem_append.mpr ⟨List.forall_mem_map.mpr fun _ _ => rfl,
        List.filterMap_eq_nil_iff.mp based.measures.contents.1⟩
    have listed : slotCommands new measured prepare ++ commands ++ last =
        ((new.map fun e => Command.entangle e.1 e.2) ++ measured) ++
          (prepare.toList.map Command.prepare ++ (commands ++ last)) := by
      simp [slotCommands]
    rw [listed, unpreparedPart quiet, slotReady entangles based.measures ends, preparedPrepare, Ready,
      and_assoc]
    refine and_congr_right fun near => ?_
    -- What this slot needs keeps the ends of its own edges ready for the slots after it.
    have later : ∀ e ∈ made ++ new, e.1 ∈ noted s prepare.toList ∧ e.2 ∈ noted s prepare.toList := by
      intro e mem
      rcases List.mem_append.mp mem with early | fresh
      · exact ⟨memNoted.mpr (.inl (ends e early).1), memNoted.mpr (.inl (ends e early).2)⟩
      · obtain ⟨source, joined⟩ := entangles.along e fresh
        exact ⟨memNoted.mpr (.inl (near e.1 source e.1 (.inl rfl))),
          memNoted.mpr (.inl (near e.1 source e.2 (.inr joined)))⟩
    rw [ih later, List.flatMap_cons, notedAppend]

theorem readyAt {s : NodeSet} : Ready g s slots ↔
    ∀ (i : Nat) (slot : NodeSet × NodeSet), slots[i]? = some slot → ∀ n ∈ slot.2,
      ∀ m, m = n ∨ m ∈ g.adjacent n →
        m ∈ s ∨ ∃ (j : Nat) (early : NodeSet × NodeSet), j < i ∧ slots[j]? = some early ∧ m ∈ early.1 := by
  induction slots generalizing s with
  | nil => simp [Ready]
  | cons slot slots ih =>
    rw [Ready, ih]
    constructor
    · rintro ⟨here, later⟩ i other found n measured m near
      cases i with
      | zero =>
        cases found
        exact .inl (here n measured m near)
      | succ i =>
        rcases later i other found n measured m near with there | ⟨j, early, before, atJ, mem⟩
        · rcases memNoted.mp there with start | first
          · exact .inl start
          · exact .inr ⟨0, slot, by omega, rfl, first⟩
        · exact .inr ⟨j + 1, early, by omega, atJ, mem⟩
    · intro all
      constructor
      · intro n measured m near
        rcases all 0 slot rfl n measured m near with start | ⟨j, _, before, _⟩
        · exact start
        · omega
      · intro i other found n measured m near
        rw [memNoted]
        rcases all (i + 1) other found n measured m near with start | ⟨j, early, before, atJ, mem⟩
        · exact .inl (.inl start)
        · cases j with
          | zero =>
            cases atJ
            exact .inl (.inr mem)
          | succ j => exact .inr ⟨j, early, by omega, atJ, mem⟩

theorem compileScheduledOk {p : Pattern R} (ok : g.compile xflow zflow (some s) correct = .ok p) :
    ∃ commands frame, Slots g [] s.timeline commands ∧
      p = ⟨g.inputs, g.outputs, commands ++ g.closing correct, frame⟩ := by
  simp only [compile, Result.refuseUnlessOk, Result.bindOk, Result.pureOk] at ok
  obtain ⟨_, _, _, _, _, frame, _, _, _, commands, listed, rfl⟩ := ok
  exact ⟨commands, frame, slotsOfScheduled listed, rfl⟩

theorem measuredSomewhere (valid : s.isValid g = true) (zero : s.FromZero) :
    (∃ slot ∈ s.timeline, n ∈ slot.2) ↔ n ∈ g.innerNodes := by
  have listed := (timelineOnce valid zero).2.2 n
  rw [List.mem_flatMap] at listed
  exact listed

theorem Sound.edgeFrom (sound : g.Sound) {e : Sym2 Int} :
    (∃ n ∈ g.innerNodes, ∃ m ∈ g.adjacent n, e = s(n, m)) ↔
      g.IsEdge e ∧ ∃ n ∈ e, n ∉ g.outputNodes := by
  have inner : ∀ {n m : Int}, m ∈ g.adjacent n → (n ∈ g.innerNodes ↔ n ∉ g.outputNodes) := by
    intro n m near
    simp [sound.ownerThere near]
  constructor
  · rintro ⟨n, mem, m, near, rfl⟩
    exact ⟨⟨n, m, rfl, near⟩, n, Sym2.mem_mk_left n m, (inner near).mp mem⟩
  · rintro ⟨⟨a, b, rfl, near⟩, n, mem, other⟩
    have back := sound.joined a b near
    rcases Sym2.mem_iff.mp mem with rfl | rfl
    · exact ⟨n, (inner near).mpr other, b, near, rfl⟩
    · exact ⟨n, (inner back).mpr other, a, back, Sym2.eq_swap⟩

/- All edges are made but those between two outputs. -/
theorem Slots.builds (run : Slots g [] s.timeline commands) (valid : s.isValid g = true)
    (zero : s.FromZero) (sound : g.Sound) (correct : Bool) :
    Builds g (fun e => g.IsEdge e ∧ ∃ n ∈ e, n ∉ g.outputNodes) correct
      (commands ++ g.closing correct) := by
  obtain ⟨prepared, nodes, noX, noZ⟩ := run.contents
  obtain ⟨lastN, lastE, lastM, lastX, lastZ⟩ := closingContents g correct
  obtain ⟨prepares, measures⟩ := timelineOnce valid zero
  constructor
  · rw [List.filterMap_append, prepared, lastN, List.append_nil]
    exact prepares.congr fun n => NodeSet.memDiff
  · rw [List.filterMap_append, lastE, List.append_nil]
    refine (run.edges .nil).congr fun e => ?_
    rw [← sound.edgeFrom]
    simp only [bonds, List.map_nil, List.not_mem_nil, false_or, ← measuredSomewhere valid zero]
    constructor
    · rintro ⟨slot, mem, n, here, near⟩
      exact ⟨n, ⟨slot, mem, here⟩, near⟩
    · rintro ⟨n, ⟨slot, mem, here⟩, near⟩
      exact ⟨slot, mem, n, here, near⟩
  · rw [List.filterMap_append, lastM, List.append_nil, nodes]
    exact measures.congr fun n => NodeSet.memDiff
  · rw [List.filterMap_append, lastM, List.append_nil]
    exact fun m => run.bases
  · rw [List.filterMap_append, noX, lastX]
    exact closingOnce g correct
  · rw [List.filterMap_append, noZ, lastZ]
    exact closingOnce g correct

theorem outputsApart : (∀ e, g.IsEdge e → ∃ n ∈ e, n ∉ g.outputNodes) ↔
    ∀ a ∈ g.outputNodes, ∀ b ∈ g.adjacent a, b ∉ g.outputNodes := by
  constructor
  · intro free a outA b near outB
    obtain ⟨n, mem, other⟩ := free s(a, b) ⟨a, b, rfl, near⟩
    rcases Sym2.mem_iff.mp mem with rfl | rfl
    · exact other outA
    · exact other outB
  · rintro apart e ⟨a, b, rfl, near⟩
    by_cases output : a ∈ g.outputNodes
    · exact ⟨b, Sym2.mem_mk_right a b, apart a output b near⟩
    · exact ⟨a, Sym2.mem_mk_left a b, output⟩

theorem scheduledResource {p q : Pattern R} (reach : g.Reachable) (valid : s.isValid g = true)
    (zero : s.FromZero) (plain : g.compile xflow zflow none correct = .ok p)
    (timed : g.compile xflow zflow (some s) correct = .ok q) :
    (p.commands.filterMap prepared?).Perm (q.commands.filterMap prepared?) ∧
      (p.commands.filterMap measured?).Perm (q.commands.filterMap measured?) ∧
      (p.commands.filterMap correctedX?).Perm (q.commands.filterMap correctedX?) ∧
      (p.commands.filterMap correctedZ?).Perm (q.commands.filterMap correctedZ?) ∧
      Once (p.commands.filterMap entangled?) g.IsEdge ∧
      Once (q.commands.filterMap entangled?) (fun e => g.IsEdge e ∧ ∃ n ∈ e, n ∉ g.outputNodes) ∧
      ((p.commands.filterMap entangled?).Perm (q.commands.filterMap entangled?) ↔
        ∀ a ∈ g.outputNodes, ∀ b ∈ g.adjacent a, b ∉ g.outputNodes) := by
  have sound := reachableSound reach
  obtain ⟨_, _, _, _, _, _, _, _, parts, rfl⟩ := compileOk.mp plain
  obtain ⟨_, _, run, rfl⟩ := compileScheduledOk timed
  have builds := parts.builds sound correct
  have builtTimed := run.builds valid zero sound correct
  refine ⟨builds.prepared.perm builtTimed.prepared, builds.measurements.perm builtTimed.measurements,
    builds.correctedX.perm builtTimed.correctedX, builds.correctedZ.perm builtTimed.correctedZ,
    builds.entangled, builtTimed.entangled, ?_⟩
  rw [builds.entangled.permIff builtTimed.entangled, ← outputsApart]
  exact forall_congr' fun e => iff_self_and

def twigPrepare : Times := .ofList [(1, some 0), (2, some 0), (3, some 0)]

def twigMeasure : Times := .ofList [(0, some 1), (1, some 2), (3, some 2)]

set_option maxRecDepth 1024

theorem twigTimed : ∃ s, (ofFlow twig twigFlow none).map (withTimes · twig twigPrepare twigMeasure) = .ok s ∧
    s.isValid twig = true ∧ s.FromZero :=
  ⟨_, rfl, by decide, by decide⟩

theorem twigScheduled : twig.Reachable ∧ ∃ s p q,
    (ofFlow twig twigFlow none).map (withTimes · twig twigPrepare twigMeasure) = .ok s ∧
    s.isValid twig = true ∧ s.FromZero ∧ twig.compile twigFlow none none true = .ok p ∧
    twig.compile twigFlow none (some s) true = .ok q ∧
    (p.commands.filterMap measured?).Perm (q.commands.filterMap measured?) ∧
    (p.commands.filterMap entangled?).Perm (q.commands.filterMap entangled?) := by
  have reach : twig.Reachable := ⟨_, rfl⟩
  obtain ⟨s, made, valid, zero⟩ := twigTimed
  obtain ⟨p, plain⟩ := twigCompiles
  obtain ⟨q, timed⟩ : ∃ q, twig.compile twigFlow none (some s) true = .ok q := by
    cases made
    exact ⟨_, rfl⟩
  obtain ⟨_, measured, _, _, _, _, same⟩ := scheduledResource reach valid zero plain timed
  have apart : ∀ a ∈ twig.outputNodes, ∀ b ∈ twig.adjacent a, b ∉ twig.outputNodes := by decide
  exact ⟨reach, s, p, q, made, valid, zero, plain, timed, measured, same.mpr apart⟩

def bridge : Graph Float := after [.addNode, .addNode, .addEdge 0 1, .registerInput 0, .registerInput 1,
  .registerOutput 0 0, .registerOutput 1 1]

theorem bridgeLost : bridge.Reachable ∧ ∃ s p q, ofFlow bridge ∅ none = .ok s ∧
    s.isValid bridge = true ∧ s.FromZero ∧ bridge.compile ∅ none none true = .ok p ∧
    bridge.compile ∅ none (some s) true = .ok q ∧
    p.commands.filterMap entangled? = [s(0, 1)] ∧ q.commands.filterMap entangled? = [] := by
  refine ⟨⟨_, rfl⟩, _, _, _, rfl, by decide, by decide, rfl, rfl, rfl, rfl⟩

theorem closingPrepared (sound : g.Sound) (valid : s.isValid g = true) (zero : s.FromZero) :
    unpreparedUntouched (noted g.inputNodes (s.timeline.flatMap fun slot => slot.1.toList))
      (g.closing correct) = .ok () := by
  have quiet : ∀ c ∈ g.closing correct, (∀ n, c ≠ .prepare n) ∧ ∀ n ∈ c.targets,
      n ∈ noted g.inputNodes (s.timeline.flatMap fun slot => slot.1.toList) := by
    intro c mem
    obtain ⟨n, output, kind⟩ := memClosing mem
    have there : n ∈ noted g.inputNodes (s.timeline.flatMap fun slot => slot.1.toList) := by
      rw [memNoted, (timelineOnce valid zero).1.2 n]
      by_cases input : n ∈ g.inputNodes
      · exact .inl input
      · exact .inr (NodeSet.memDiff.mpr ⟨sound.outputsThere n output, input⟩)
    rcases kind with rfl | rfl
    · exact ⟨by simp, by simpa [Command.targets] using there⟩
    · exact ⟨by simp, by simpa [Command.targets] using there⟩
  have done : unpreparedUntouched _ (g.closing correct ++ []) = .ok () := preparedSkip quiet
  rwa [List.append_nil] at done

theorem readyTimes (valid : s.isValid g = true) (zero : s.FromZero) :
    Ready g g.inputNodes s.timeline ↔ ∀ n ∈ g.innerNodes, ∀ m, m = n ∨ m ∈ g.adjacent n →
      m ∈ g.inputNodes ∨ s.Ahead m n := by
  rw [readyAt]
  constructor
  · intro all n inner m near
    obtain ⟨late, atN⟩ := (validTimes valid n).2.mpr inner
    obtain ⟨i, rfl, slot⟩ := zero.slotAt (List.mem_append_right _ (Times.memKnown.mpr ⟨n, atN⟩))
    rcases all i _ slot n (Times.memAtTime.mpr atN) m near with start | ⟨j, early, before, found, mem⟩
    · exact .inl start
    · obtain ⟨_, rfl⟩ := timelineAt.mp found
      exact .inr ⟨j, i, Times.memAtTime.mp mem, atN, Int.ofNat_lt.mpr before⟩
  · intro all i slot found n measured m near
    obtain ⟨_, rfl⟩ := timelineAt.mp found
    have atN := Times.memAtTime.mp measured
    have inner : n ∈ g.innerNodes := (validTimes valid n).2.mp ⟨i, atN⟩
    rcases all n inner m near with start | ⟨early, late, atM, atLate, before⟩
    · exact .inl start
    · obtain ⟨j, rfl, slot⟩ := zero.slotAt (List.mem_append_left _ (Times.memKnown.mpr ⟨m, atM⟩))
      rw [atN, Option.some.injEq, Option.some.injEq] at atLate
      exact .inr ⟨j, _, by omega, slot, Times.memAtTime.mpr atM⟩

/- A pattern with a valid schedule prepares what it uses just when every measured node and all its
neighbours are inputs or prepared in an earlier slot. -/
theorem scheduledPreparedIff {p : Pattern R} (reach : g.Reachable) (valid : s.isValid g = true)
    (zero : s.FromZero) (ok : g.compile xflow zflow (some s) correct = .ok p) :
    (p.checkPrepared = .ok () ↔ Along (fun before c => c.prepared? = none → ∀ n ∈ c.targets,
        n ∈ g.inputNodes ∨ .prepare n ∈ before) p.commands) ∧
      (p.checkPrepared = .ok () ↔ ∀ n ∈ g.innerNodes, ∀ m, m = n ∨ m ∈ g.adjacent n →
        m ∈ g.inputNodes ∨ s.Ahead m n) := by
  obtain ⟨commands, frame, run, rfl⟩ := compileScheduledOk ok
  have checked : unpreparedUntouched g.inputNodes (commands ++ g.closing correct) = .ok () ↔
      Ready g g.inputNodes s.timeline := by
    rw [run.ready (by simp), and_iff_left (closingPrepared (reachableSound reach) valid zero)]
  exact ⟨unpreparedUntouchedOk, checked.trans (readyTimes valid zero)⟩

theorem twigSafe : twig.Reachable ∧ ∃ s p,
    (ofFlow twig twigFlow none).map (withTimes · twig twigPrepare twigMeasure) = .ok s ∧
    s.isValid twig = true ∧ s.FromZero ∧ twig.compile twigFlow none (some s) true = .ok p ∧
    p.checkPrepared = .ok () := by
  have reach : twig.Reachable := ⟨_, rfl⟩
  obtain ⟨s, made, valid, zero⟩ := twigTimed
  obtain ⟨p, ok⟩ : ∃ p, twig.compile twigFlow none (some s) true = .ok p := by
    cases made
    exact ⟨_, rfl⟩
  have ahead : ∀ n ∈ twig.innerNodes, ∀ m, m = n ∨ m ∈ twig.adjacent n →
      m ∈ twig.inputNodes ∨ s.Ahead m n := by
    have all : ∀ n ∈ twig.innerNodes, ∀ m ∈ (twig.adjacent n).insert n,
        m ∈ twig.inputNodes ∨ s.Ahead m n := by
      cases made
      decide
    simpa using all
  exact ⟨reach, s, p, made, valid, zero, ok, (scheduledPreparedIff reach valid zero ok).2.mpr ahead⟩

theorem spiderTooLate : spider.Reachable ∧ ∃ s p,
    (ofFlow spider ∅ none).map
      (withTimes · spider (.ofList [(1, some 1)]) (.ofList [(1, some 0)])) = .ok s ∧
    s.isValid spider = true ∧ s.FromZero ∧ spider.compile ∅ none (some s) true = .ok p ∧
    p.checkPrepared = .error (.entanglesUnprepared (.entangle 1 0)) :=
  ⟨⟨_, rfl⟩, _, _, rfl, by decide, by decide, rfl, rfl⟩

end Graph
end OneWay
