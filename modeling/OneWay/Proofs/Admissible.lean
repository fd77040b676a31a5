import Mathlib.Data.List.Induction
import Mathlib.Data.Sym.Sym2
import OneWay.Proofs.Meaning
import OneWay.Proofs.Pipeline
import OneWay.Proofs.Roles

/-! Which instructions have a graph, and what it looks like. An edge between the nodes that two qubits are
on is there just when the qubits were joined and neither has moved since. So a controlled Z is refused
when it repeats one in this sense, and all else that is refused can be seen from the instruction itself. -/
namespace OneWay

namespace Gate
variable {R : Type}

def isJ : Gate R → Bool
  | .j _ _ => true
  | _ => false

def isCz : Gate R → Bool
  | .cz _ => true
  | _ => false

def isGadget : Gate R → Bool
  | .phaseGadget _ _ => true
  | _ => false

def gadgetQubits : Gate R → List Int
  | .phaseGadget qubits _ => qubits
  | _ => []

end Gate

namespace Graph
variable {R : Type} [Scalar R] {g next : Graph R} {m n : Int} {ns : List Int} {bases : Table (Basis R)}

theorem attachEdges (ok : g.attach m ns = .ok next) : next.edges.length = g.edges.length + ns.length := by
  induction ns generalizing g with
  | nil =>
    cases ok
    rfl
  | cons n rest ih =>
    obtain ⟨h, first, later⟩ := attachCons.mp ok
    rw [ih later, (addEdgePerm first).length_eq, List.length_cons, List.length_cons]
    omega

theorem attachNewEdges (sound : g.Sound)
    (ok : attach { g.addNode.2 with bases := bases } g.next ns = .ok next) :
    next.edges.length = g.edges.length + ns.length := by
  have bare : ({ g.addNode.2 with bases := bases } : Graph R).edges.length = g.edges.length :=
    (addNodeEdges sound).length_eq
  rw [attachEdges ok, bare]

theorem attachClear (ok : g.attach m ns = .ok next) :
    ns.Nodup ∧ ∀ n ∈ ns, n ≠ m ∧ m ∉ g.adjacent n := by
  induction ns generalizing g with
  | nil => simp
  | cons n rest ih =>
    obtain ⟨h, first, later⟩ := attachCons.mp ok
    obtain ⟨once, clear⟩ := ih later
    obtain ⟨_, _, _, apart, different, _⟩ := addEdgeOk.mp first
    have here : m ∈ h.adjacent n := (addEdgeAdjacent first).mpr (.inr (.inl ⟨rfl, rfl⟩))
    refine ⟨List.nodup_cons.mpr ⟨fun again => (clear n again).2 here, once⟩, ?_⟩
    refine List.forall_mem_cons.mpr ⟨⟨different, fun near => apart (.inr near)⟩, fun k mem => ?_⟩
    exact ⟨(clear k mem).1, fun near => (clear k mem).2 ((addEdgeAdjacent first).mpr (.inl near))⟩

theorem attachTotal (sound : g.Sound) (here : m ∈ g.nodes) (once : ns.Nodup)
    (clear : ∀ n ∈ ns, n ∈ g.nodes ∧ n ≠ m ∧ m ∉ g.adjacent n) :
    ∃ next, g.attach m ns = .ok next := by
  induction ns generalizing g with
  | nil => exact ⟨g, rfl⟩
  | cons n rest ih =>
    obtain ⟨new, once⟩ := List.nodup_cons.mp once
    obtain ⟨⟨there, different, apart⟩, clear⟩ := List.forall_mem_cons.mp clear
    obtain ⟨h, first⟩ := addEdgeTotal sound there here apart different
    have still : ∀ k ∈ rest, k ∈ h.nodes ∧ k ≠ m ∧ m ∉ h.adjacent k := by
      intro k mem
      obtain ⟨there, different, apart⟩ := clear k mem
      refine ⟨(addEdgeNodes first).mpr there, different, fun near => ?_⟩
      rcases (addEdgeAdjacent first).mp near with old | ⟨same, _⟩ | ⟨same, _⟩
      · exact apart old
      · exact new (same ▸ mem)
      · exact different same
    obtain ⟨next, later⟩ := ih (addEdgeSound sound first) ((addEdgeNodes first).mpr here) once still
    exact ⟨next, attachCons.mpr ⟨h, first, later⟩⟩

end Graph

namespace Circuit
variable {R : Type} {p q : Int} {gate : Gate R} {done gates : List (Gate R)}

def Joins (p q : Int) (gate : Gate R) : Prop := ∃ a b rest, gate = .cz (a :: b :: rest) ∧ s(a, b) = s(p, q)

def Moves (p q : Int) (gate : Gate R) : Prop := ∃ angle, gate = .j p angle ∨ gate = .j q angle

def Linked (p q : Int) (done : List (Gate R)) : Prop :=
  ∃ before gate between, done = before ++ gate :: between ∧ Joins p q gate ∧
    ∀ later ∈ between, ¬ Moves p q later

def Inside (qubits : Nat) (q : Int) : Prop := 0 ≤ q ∧ q < qubits

/- What may follow the instructions so far. Of a controlled Z only the first two operands are read. -/
def Allowed (qubits : Nat) (done : List (Gate R)) : Gate R → Prop
  | .j q _ => Inside qubits q
  | .cz (p :: q :: _) => Inside qubits p ∧ Inside qubits q ∧ p ≠ q ∧ ¬ Linked p q done
  | .phaseGadget operands _ => operands.Nodup ∧ ∀ q ∈ operands, Inside qubits q
  | _ => False

def Admissible (qubits : Nat) (gates : List (Gate R)) : Prop :=
  ∀ before gate after, gates = before ++ gate :: after → Allowed qubits before gate

def nodeCount (qubits : Nat) (gates : List (Gate R)) : Nat :=
  qubits + gates.countP Gate.isJ + gates.countP Gate.isGadget

def edgeCount (gates : List (Gate R)) : Nat :=
  gates.countP Gate.isJ + gates.countP Gate.isCz + (gates.flatMap Gate.gadgetQubits).length

theorem splitSnoc {α : Type} {xs before after : List α} {x y : α} :
    xs ++ [x] = before ++ y :: after ↔
      (xs = before ∧ x = y ∧ after = []) ∨ ∃ rest, after = rest ++ [x] ∧ xs = before ++ y :: rest := by
  constructor
  · intro eq
    rcases List.eq_nil_or_concat after with rfl | ⟨rest, last, rfl⟩
    · obtain ⟨rfl, same⟩ := List.append_inj' eq rfl
      exact .inl ⟨rfl, (List.cons.inj same).1, rfl⟩
    · have eq' : xs ++ [x] = (before ++ y :: rest) ++ [last] := by simpa using eq
      obtain ⟨rfl, same⟩ := List.append_inj' eq' rfl
      obtain ⟨rfl, _⟩ := List.cons.inj same
      exact .inr ⟨rest, List.concat_eq_append, rfl⟩
  · rintro (⟨rfl, rfl, rfl⟩ | ⟨rest, rfl, rfl⟩)
    · rfl
    · simp

theorem linkedSnoc : Linked p q (done ++ [gate]) ↔
    Joins p q gate ∨ (¬ Moves p q gate ∧ Linked p q done) := by
  constructor
  · rintro ⟨before, joining, between, split, joins, still⟩
    rcases splitSnoc.mp split with ⟨rfl, rfl, rfl⟩ | ⟨rest, rfl, rfl⟩
    · exact .inl joins
    · obtain ⟨earlier, last⟩ := List.forall_mem_append.mp still
      exact .inr ⟨last gate (List.mem_singleton.mpr rfl), before, joining, rest, rfl, joins, earlier⟩
  · rintro (joins | ⟨stays, before, joining, between, rfl, joins, still⟩)
    · exact ⟨done, gate, [], rfl, joins, by simp⟩
    · refine ⟨before, joining, between ++ [gate], by simp, joins, ?_⟩
      exact List.forall_mem_append.mpr ⟨still, List.forall_mem_singleton.mpr stays⟩

theorem linkedJ {o : Int} {angle : R} :
    Linked p q (done ++ [.j o angle]) ↔ o ≠ p ∧ o ≠ q ∧ Linked p q done := by
  have moves : Moves p q (.j o angle) ↔ o = p ∨ o = q := by simp [Moves, exists_or]
  have joins : ¬ Joins p q (.j o angle) := by simp [Joins]
  rw [linkedSnoc, moves, not_or, and_assoc]
  exact or_iff_right joins

theorem linkedCz {a b : Int} {rest : List Int} :
    Linked p q (done ++ [.cz (a :: b :: rest)]) ↔ s(a, b) = s(p, q) ∨ Linked p q done := by
  have moves : ¬ Moves p q (.cz (a :: b :: rest) : Gate R) := by simp [Moves]
  have joins : Joins p q (.cz (a :: b :: rest) : Gate R) ↔ s(a, b) = s(p, q) := by
    constructor
    · rintro ⟨_, _, _, kind, same⟩
      cases kind
      exact same
    · exact fun same => ⟨a, b, rest, rfl, same⟩
  rw [linkedSnoc, joins]
  exact or_congr_right (and_iff_right moves)

theorem linkedGadget {operands : List Int} {angle : R} :
    Linked p q (done ++ [.phaseGadget operands angle]) ↔ Linked p q done := by
  have moves : ¬ Moves p q (.phaseGadget operands angle) := by simp [Moves]
  have joins : ¬ Joins p q (.phaseGadget operands angle) := by simp [Joins]
  rw [linkedSnoc, and_iff_right moves]
  exact or_iff_right joins

theorem admissibleSnoc {qubits : Nat} : Admissible qubits (gates ++ [gate]) ↔
    Admissible qubits gates ∧ Allowed qubits gates gate := by
  constructor
  · intro all
    refine ⟨fun before other after split => all before other (after ++ [gate]) ?_, all gates gate [] rfl⟩
    rw [split, List.append_assoc, List.cons_append]
  · rintro ⟨all, last⟩ before other after split
    rcases splitSnoc.mp split with ⟨rfl, rfl, rfl⟩ | ⟨rest, rfl, rfl⟩
    · exact last
    · exact all before other rest rfl

theorem linkedNil : ¬ Linked p q ([] : List (Gate R)) := by
  rintro ⟨before, gate, between, split, _⟩
  cases before <;> cases split

namespace Growth
variable [Scalar R] {s s' : Growth R} {qubits : Nat} {n m : Int}

def Links (done : List (Gate R)) (s : Growth R) : Prop :=
  ∀ p q a b, p ≠ q → s.front.get? p = some a → s.front.get? q = some b →
    (b ∈ s.graph.adjacent a ↔ Linked p q done)

theorem seedLinks : Links [] (seed qubits : Growth R) := by
  intro p q a b _ _ _
  rw [seedAdjacent]
  exact iff_of_false NodeSet.notMemEmpty linkedNil

theorem Grown.inside (grown : Grown qubits s) : q ∈ s.front.keys ↔ Inside qubits q := by
  rw [grown.qubitsKept, Table.memKeys]
  simp only [seedGet, Inside, exists_eq_left]

theorem Grown.frontInj (grown : Grown qubits s) (atP : s.front.get? p = some n)
    (atQ : s.front.get? q = some m) : n = m ↔ p = q := by
  constructor
  · rintro rfl
    exact grown.frontApart p q n atP atQ
  · rintro rfl
    exact Option.some.inj (atP.symm.trans atQ)

theorem Links.j (grown : Grown qubits s) (links : Links done s) {o : Int} {angle : R} {g : Graph R}
    (onto : s.front.get? o = some n) (joined : s.graph.addNode.2.attach s.graph.next [n] = .ok g) :
    Links (done ++ [.j o angle]) ⟨{ g with bases := g.bases.set n (.planar .xy (-angle)) },
      s.front.set o s.graph.next, s.flow.set n (.singleton s.graph.next)⟩ := by
  have near {x y : Int} : y ∈ g.adjacent x ↔ y ∈ s.graph.adjacent x ∨ (x = n ∧ y = s.graph.next) ∨
      (x = s.graph.next ∧ y = n) := by
    rw [Graph.attachNewAdjacent grown.sound joined, List.mem_singleton, List.mem_singleton]
  have fresh : n ≠ s.graph.next := grown.fresh onto
  have left {r k : Int} (atR : s.front.get? r = some k) (other : r ≠ o) : k ≠ n := fun same =>
    other ((grown.frontInj atR onto).mp same)
  intro p q a b apart atP atQ
  show b ∈ g.adjacent a ↔ _
  rw [Table.getSet] at atP atQ
  rw [linkedJ, near]
  -- The new node is joined to the one that was left, which no qubit is on any more.
  by_cases movedP : p = o
  · rw [if_pos movedP] at atP
    rw [if_neg (movedP ▸ apart.symm)] at atQ
    cases atP
    refine iff_of_false ?_ fun given => given.1 movedP.symm
    rintro (old | ⟨same, _⟩ | ⟨_, same⟩)
    · exact grown.sound.nextAlone old
    · exact fresh same.symm
    · exact left atQ (movedP ▸ apart.symm) same
  · rw [if_neg movedP] at atP
    by_cases movedQ : q = o
    · rw [if_pos movedQ] at atQ
      cases atQ
      refine iff_of_false ?_ fun given => given.2.1 movedQ.symm
      rintro (old | ⟨same, _⟩ | ⟨_, same⟩)
      · exact grown.sound.nextFresh (grown.sound.neighborThere old)
      · exact left atP movedP same
      · exact fresh same.symm
    · rw [if_neg movedQ] at atQ
      rw [links p q a b apart atP atQ]
      have stayA := left atP movedP
      have stayB := left atQ movedQ
      simp [stayA, stayB, Ne.symm movedP, Ne.symm movedQ]

theorem Links.cz (grown : Grown qubits s) (links : Links done s) {o r a b : Int} {rest : List Int}
    {g : Graph R} (first : s.front.get? o = some a) (second : s.front.get? r = some b)
    (joined : s.graph.attach b [a] = .ok g) : Links (done ++ [.cz (o :: r :: rest)]) { s with graph := g } := by
  intro p q x y apart atP atQ
  rw [linkedCz, ← links p q x y apart atP atQ, Sym2.eq_iff, Graph.attachAdjacent joined, List.mem_singleton,
    List.mem_singleton, grown.frontInj atP first, grown.frontInj atQ second, grown.frontInj atP second,
    grown.frontInj atQ first, or_comm]
  exact or_congr_left
    (or_congr (and_congr eq_comm eq_comm) (and_comm.trans (and_congr eq_comm eq_comm)))

theorem Links.gadget (grown : Grown qubits s) (links : Links done s) {operands ns : List Int} {angle : R}
    {g : Graph R} (joined : Graph.attach { s.graph.addNode.2 with
      bases := s.graph.bases.set s.graph.next (.planar .yz angle) } s.graph.next ns = .ok g) :
    Links (done ++ [.phaseGadget operands angle])
      ⟨g, s.front, s.flow.set s.graph.next (.singleton s.graph.next)⟩ := by
  intro p q a b apart atP atQ
  show b ∈ g.adjacent a ↔ _
  rw [linkedGadget, ← links p q a b apart atP atQ, Graph.attachNewAdjacent grown.sound joined]
  simp [grown.fresh atP, grown.fresh atQ]

theorem Links.step (grown : Grown qubits s) (links : Links done s) (step : Step s gate s') :
    Links (done ++ [gate]) s' := by
  cases step with
  | j onto joined => exact links.j grown onto joined
  | cz first second joined => exact links.cz grown first second joined
  | gadget _ joined => exact links.gadget grown joined

theorem linksRun (ok : gates.foldlM addInstruction (seed qubits) = .ok s) : Grown qubits s ∧ Links gates s :=
  grownRun seedLinks (fun _ _ _ _ grown links step => links.step grown step) ok

theorem frontsNodup {operands ns : List Int}
    (onto : List.Forall₂ (fun q n => s.front.get? q = some n) operands ns) (once : ns.Nodup) :
    operands.Nodup := by
  have same : operands.map s.front.get? = ns.map some := by
    induction onto with
    | nil => rfl
    | cons here _ ih => rw [List.map_cons, List.map_cons, here, ih (List.nodup_cons.mp once).2]
  refine List.Nodup.of_map s.front.get? ?_
  rw [same]
  exact once.map (Option.some_injective _)

theorem Step.allowed (grown : Grown qubits s) (links : Links done s) (step : Step s gate s') :
    Allowed qubits done gate := by
  have inside {q n : Int} (found : s.front.get? q = some n) : Inside qubits q :=
    grown.inside.mp (Table.memKeys.mpr ⟨n, found⟩)
  cases step with
  | j onto joined => exact inside onto
  | @cz p q rest a b g first second joined =>
    obtain ⟨_, clear⟩ := Graph.attachClear joined
    obtain ⟨different, apart⟩ := clear a (List.mem_singleton.mpr rfl)
    have other : p ≠ q := fun same => different ((grown.frontInj first second).mpr same)
    refine ⟨inside first, inside second, other, fun linked => ?_⟩
    exact apart ((links p q a b other first second).mpr linked)
  | gadget onto joined =>
    refine ⟨frontsNodup onto (Graph.attachClear joined).1, fun q mem => ?_⟩
    obtain ⟨n, _, found⟩ := Result.memSource onto.flip mem
    exact inside found

theorem hangAttach {operands ns : List Int} {g : Graph R}
    (onto : List.Forall₂ (fun q n => s.front.get? q = some n) operands ns) :
    operands.foldlM (fun (g : Graph R) q => do g.addEdge (← s.frontOf q) m) g = g.attach m ns := by
  induction onto generalizing g with
  | nil => rfl
  | cons here _ ih =>
    rw [List.foldlM_cons, frontOfOk.mpr here, Result.okBind, Graph.attach, List.foldlM_cons]
    exact congrArg _ (funext fun h => ih)

theorem Grown.fronts (grown : Grown qubits s) {operands : List Int}
    (inside : ∀ q ∈ operands, Inside qubits q) (once : operands.Nodup) :
    ∃ ns, List.Forall₂ (fun q n => s.front.get? q = some n) operands ns ∧ ns.Nodup := by
  induction operands with
  | nil => exact ⟨[], .nil, List.nodup_nil⟩
  | cons q rest ih =>
    obtain ⟨new, once⟩ := List.nodup_cons.mp once
    obtain ⟨here, inside⟩ := List.forall_mem_cons.mp inside
    obtain ⟨n, onto⟩ := Table.memKeys.mp (grown.inside.mpr here)
    obtain ⟨ns, fronts, apart⟩ := ih inside once
    refine ⟨n :: ns, .cons onto fronts, List.nodup_cons.mpr ⟨fun again => ?_, apart⟩⟩
    obtain ⟨o, mem, found⟩ := Result.memSource fronts again
    exact new (grown.frontApart o q n found onto ▸ mem)

theorem Grown.addJTotal (grown : Grown qubits s) (onto : s.front.get? q = some n) (angle : R) :
    ∃ s', s.addJ q angle = .ok s' := by
  have there : n ∈ s.graph.addNode.2.nodes := Graph.addNodeNodes.mpr (.inr (grown.frontThere q n onto))
  have apart : s.graph.next ∉ s.graph.addNode.2.adjacent n := by
    rw [Graph.addNodeAdjacent grown.sound]
    exact fun near => grown.sound.nextFresh (grown.sound.neighborThere near)
  obtain ⟨g, joined⟩ := Graph.addEdgeTotal (Graph.addNodeSound grown.sound) there
    (Graph.addNodeNodes.mpr (.inl rfl)) apart (grown.fresh onto)
  have outputs : g.outputs = ∅ := (Graph.addEdgeRest joined).2.2.1.trans grown.outputs
  have based : g.assignBasis n (.planar .xy (-angle)) =
      .ok { g with bases := g.bases.set n (.planar .xy (-angle)) } :=
    Graph.assignBasisOk.mpr ⟨(Graph.addEdgeNodes joined).mpr there, by simp [outputs], rfl⟩
  unfold addJ
  simp only [Result.bindOk, Result.pureOk]
  exact ⟨_, n, frontOfOk.mpr onto, g, joined, _, based, rfl⟩

theorem Grown.addCzTotal (grown : Grown qubits s) {a b : Int} {rest : List Int}
    (first : s.front.get? p = some a) (second : s.front.get? q = some b) (other : p ≠ q) (clear : b ∉ s.graph.adjacent a) :
    ∃ s', s.addCz (p :: q :: rest) = .ok s' := by
  obtain ⟨g, joined⟩ := Graph.addEdgeTotal grown.sound (grown.frontThere p a first)
    (grown.frontThere q b second) clear fun same => other ((grown.frontInj first second).mp same)
  unfold addCz
  simp only [Result.bindOk, Result.pureOk, operandOk, frontOfOk]
  exact ⟨_, p, rfl, a, first, q, rfl, b, second, g, joined, rfl⟩

theorem Grown.addGadgetTotal (grown : Grown qubits s) {operands ns : List Int}
    (onto : List.Forall₂ (fun q n => s.front.get? q = some n) operands ns) (once : ns.Nodup) (angle : R) :
    ∃ s', s.addGadget operands angle = .ok s' := by
  have sound := Graph.assignBasisSound (Graph.addNodeSound grown.sound) (grown.newBased (.planar .yz angle))
  obtain ⟨g, joined⟩ := Graph.attachTotal (m := s.graph.next) sound (Graph.addNodeNodes.mpr (.inl rfl)) once
    fun n mem => by
      obtain ⟨q, _, found⟩ := Result.memSource onto mem
      refine ⟨Graph.addNodeNodes.mpr (.inr (grown.frontThere q n found)), grown.fresh found, fun near => ?_⟩
      have old : s.graph.next ∈ s.graph.adjacent n := Graph.addNodeAdjacent grown.sound ▸ near
      exact grown.sound.nextFresh (grown.sound.neighborThere old)
  unfold addGadget
  simp only [Result.bindOk, Result.pureOk]
  exact ⟨_, _, grown.newBased _, g, (hangAttach onto).trans joined, rfl⟩

theorem Grown.accepts (grown : Grown qubits s) (links : Links done s) (allowed : Allowed qubits done gate) :
    ∃ s', addInstruction s gate = .ok s' := by
  have on {q : Int} (inside : Inside qubits q) : ∃ n, s.front.get? q = some n :=
    Table.memKeys.mp (grown.inside.mpr inside)
  unfold Allowed at allowed
  split at allowed
  · rename_i angle
    obtain ⟨n, onto⟩ := on allowed
    obtain ⟨s', ok⟩ := grown.addJTotal onto angle
    exact ⟨s', refuseOk.mpr ok⟩
  · obtain ⟨insideP, insideQ, other, clear⟩ := allowed
    obtain ⟨a, first⟩ := on insideP
    obtain ⟨b, second⟩ := on insideQ
    obtain ⟨s', ok⟩ := grown.addCzTotal first second other fun near =>
      clear ((links _ _ a b other first second).mp near)
    exact ⟨s', refuseOk.mpr ok⟩
  · rename_i angle
    obtain ⟨once, inside⟩ := allowed
    obtain ⟨ns, onto, apart⟩ := grown.fronts inside once
    obtain ⟨s', ok⟩ := grown.addGadgetTotal onto apart angle
    exact ⟨s', refuseOk.mpr ok⟩
  · cases allowed

theorem runIff : (∃ s, gates.foldlM addInstruction (seed qubits : Growth R) = .ok s) ↔
    Admissible qubits gates := by
  induction gates using List.reverseRecOn with
  | nil =>
    refine iff_of_true ⟨_, rfl⟩ fun before gate after split => ?_
    cases before <;> cases split
  | append_singleton gates gate ih =>
    rw [admissibleSnoc, ← ih]
    simp only [List.foldlM_append, List.foldlM_cons, List.foldlM_nil, bind_pure, Result.bindOk]
    constructor
    · rintro ⟨s', s, earlier, last⟩
      obtain ⟨grown, links⟩ := linksRun earlier
      exact ⟨⟨s, earlier⟩, (instructionSource last).allowed grown links⟩
    · rintro ⟨⟨s, earlier⟩, allowed⟩
      obtain ⟨grown, links⟩ := linksRun earlier
      obtain ⟨s', last⟩ := grown.accepts links allowed
      exact ⟨s', s, earlier, last⟩

theorem Grown.finishTotal (grown : Grown qubits s) : ∃ g, s.finish = .ok g := by
  have apart : (s.front.entries.map Prod.snd).Nodup := by
    refine List.Nodup.map_on (fun e mem o memO same => ?_) (List.Nodup.of_map _ s.front.distinct)
    have atE := Table.memEntries.mp mem
    exact Prod.ext (grown.frontApart e.1 o.1 o.2 (same ▸ atE) (Table.memEntries.mp memO)) same
  obtain ⟨outputs, ran, _⟩ := Graph.registerAll (g := s.graph) (s.front.entries.map Prod.swap)
    (by rwa [List.map_map]) (by rw [List.map_map]; exact s.front.distinct)
    (List.forall_mem_map.mpr fun e mem => by
      have onto := Table.memEntries.mp mem
      have inside := grown.inside.mp (Table.memKeys.mpr ⟨e.2, onto⟩)
      refine ⟨grown.frontThere e.1 e.2 onto, grown.frontFree e.1 e.2 onto, ?_⟩
      rw [grown.inputs, seedSize]
      exact inside.2)
    (by rw [grown.outputs]; exact fun e _ => ⟨List.not_mem_nil, List.not_mem_nil⟩)
  rw [List.foldlM_map] at ran
  exact ⟨_, ran⟩

structure Counted (qubits : Nat) (done : List (Gate R)) (g : Graph R) : Prop where
  next : g.next = nodeCount qubits done
  nodes : ∀ n, n ∈ g.nodes ↔ 0 ≤ n ∧ n < nodeCount qubits done
  edges : g.edges.length = edgeCount done

theorem seedCounted : Counted qubits [] (seed qubits : Growth R).graph where
  next := rfl
  nodes _ := seedNode
  edges := by
    refine List.length_eq_zero_iff.mpr (List.eq_nil_iff_forall_not_mem.mpr fun e mem => ?_)
    have near := (Graph.memEdges.mp mem).1
    rw [seedAdjacent] at near
    exact NodeSet.notMemEmpty near

theorem Counted.attachNew {g next : Graph R} {bases : Table (Basis R)} {ns : List Int} (sound : g.Sound)
    (counted : Counted qubits done g) (nodes : nodeCount qubits (done ++ [gate]) = nodeCount qubits done + 1)
    (edges : edgeCount (done ++ [gate]) = edgeCount done + ns.length)
    (joined : Graph.attach { g.addNode.2 with bases := bases } g.next ns = .ok next) :
    Counted qubits (done ++ [gate]) next where
  next := by
    rw [nodes, Nat.cast_succ, ← counted.next]
    exact (Graph.attachRest joined).1
  nodes n := by
    rw [Graph.attachNewKeys joined, counted.nodes, counted.next, nodes]
    omega
  edges := by rw [edges, ← counted.edges, Graph.attachNewEdges sound joined]

theorem Counted.step (grown : Grown qubits s) (counted : Counted qubits done s.graph) (step : Step s gate s') :
    Counted qubits (done ++ [gate]) s'.graph := by
  cases step with
  | @j q angle n g onto joined =>
    have nodes : nodeCount qubits (done ++ [.j q angle]) = nodeCount qubits done + 1 := by
      simp [nodeCount, Gate.isJ, Gate.isGadget]
      omega
    have edges : edgeCount (done ++ [.j q angle]) = edgeCount done + [n].length := by
      simp [edgeCount, Gate.isJ, Gate.isCz, Gate.gadgetQubits]
      omega
    obtain ⟨next, nodes, edges⟩ := counted.attachNew grown.sound nodes edges joined
    exact ⟨next, nodes, edges⟩
  | @cz p q rest a b g first second joined =>
    have nodes : nodeCount qubits (done ++ [.cz (p :: q :: rest)]) = nodeCount qubits done := by
      simp [nodeCount, Gate.isJ, Gate.isGadget]
    have edges : edgeCount (done ++ [.cz (p :: q :: rest)]) = edgeCount done + 1 := by
      simp [edgeCount, Gate.isJ, Gate.isCz, Gate.gadgetQubits]
      omega
    refine ⟨?_, fun m => ?_, ?_⟩
    · rw [nodes, ← counted.next]
      exact (Graph.attachRest joined).1
    · rw [nodes, ← counted.nodes]
      exact Graph.attachKeys joined
    · rw [edges, ← counted.edges]
      exact Graph.attachEdges joined
  | @gadget operands angle ns g onto joined =>
    have nodes : nodeCount qubits (done ++ [.phaseGadget operands angle]) = nodeCount qubits done + 1 := by
      simp [nodeCount, Gate.isJ, Gate.isGadget]
      omega
    have edges : edgeCount (done ++ [.phaseGadget operands angle]) = edgeCount done + ns.length := by
      simp [edgeCount, Gate.isJ, Gate.isCz, Gate.gadgetQubits, onto.length_eq]
      omega
    exact counted.attachNew grown.sound nodes edges joined

theorem countedRun (ok : gates.foldlM addInstruction (seed qubits) = .ok s) :
    Grown qubits s ∧ Counted qubits gates s.graph :=
  grownRun (P := fun done t => Counted qubits done t.graph) seedCounted
    (fun _ _ _ _ grown counted step => counted.step grown step) ok

end Growth

structure Shaped [Scalar R] (qubits : Nat) (gates : List (Gate R)) (g : Graph R) (flow : Table NodeSet) :
    Prop where
  canonical : g.isCanonical = true
  nodes : ∀ n, n ∈ g.nodes ↔ 0 ≤ n ∧ n < nodeCount qubits gates
  inputs : ∀ n q, g.inputs.get? n = some q ↔ n = q ∧ Inside qubits q
  outputs : ∀ q, Inside qubits q → ∃! n, g.outputs.get? n = some q
  flow : ∀ n, n ∈ flow.keys ↔ n ∈ g.nodes ∧ n ∉ g.outputs.keys
  edges : g.edges.length = edgeCount gates

namespace Growth
variable [Scalar R] {s : Growth R} {qubits : Nat}

theorem shaped (ran : gates.foldlM addInstruction (seed qubits) = .ok s) {g : Graph R}
    (finished : s.finish = .ok g) : Shaped qubits gates g s.flow := by
  obtain ⟨grown, counted⟩ := countedRun ran
  obtain ⟨same, _, outputs⟩ := grown.finish finished
  have nodes : g.nodes = s.graph.nodes := by rw [same]
  have inputs : g.inputs = (seed qubits : Growth R).front := by
    rw [same]
    exact grown.inputs
  have edges : g.edges = s.graph.edges := by
    rw [same]
    rfl
  refine ⟨grown.canonical finished, ?_, ?_, ?_, ?_, ?_⟩
  · rw [nodes]
    exact counted.nodes
  · intro n q
    rw [inputs, seedGet]
    constructor
    · rintro ⟨rfl, inside⟩
      exact ⟨rfl, inside⟩
    · rintro ⟨rfl, inside⟩
      exact ⟨rfl, inside⟩
  · intro q inside
    obtain ⟨n, onto⟩ := Table.memKeys.mp (grown.inside.mpr inside)
    refine ⟨n, (outputs n q).mpr onto, fun m found => ?_⟩
    exact Option.some.inj (((outputs m q).mp found).symm.trans onto)
  · intro n
    rw [grown.flowKeys, ← grown.innerBased finished, Graph.memInnerNodes]
  · rw [edges, counted.edges]

end Growth

/- A circuit has a graph if and only if its instructions are admissible, and the graph has their shape. -/
theorem toGraphShaped [Scalar R] (c : Circuit R) :
    ((∃ g flow, c.toGraph = .ok (g, flow)) ↔
      ∃ gates, c.instructions = .ok gates ∧ Admissible c.qubits.toNat gates) ∧
    ∀ g flow, c.toGraph = .ok (g, flow) →
      ∃ gates, c.instructions = .ok gates ∧ Shaped c.qubits.toNat gates g flow := by
  refine ⟨⟨?_, ?_⟩, ?_⟩
  · rintro ⟨g, flow, ok⟩
    obtain ⟨gates, s, read, ran, _⟩ := toGraphSource ok
    exact ⟨gates, read, Growth.runIff.mp ⟨s, ran⟩⟩
  · rintro ⟨gates, read, admissible⟩
    obtain ⟨s, ran⟩ := Growth.runIff.mpr admissible
    obtain ⟨g, finished⟩ := (Growth.linksRun ran).1.finishTotal
    exact ⟨g, s.flow, toGraphOk.mpr ⟨gates, s, read, ran, finished, rfl⟩⟩
  · intro g flow ok
    obtain ⟨gates, s, read, ran, finished, rfl⟩ := toGraphSource ok
    exact ⟨gates, read, Growth.shaped ran finished⟩

def woven : Circuit Float :=
  ⟨3, [.verbatim (.cz [0, 1]), .verbatim (.j 0 Scalar.pi), .verbatim (.cz [1, 0]),
    .verbatim (.phaseGadget [0, 2, 1] Scalar.pi)]⟩

theorem wovenShaped : ∃ g flow gates, woven.toGraph = .ok (g, flow) ∧ woven.instructions = .ok gates ∧
    Admissible 3 gates ∧ Shaped 3 gates g flow ∧ nodeCount 3 gates = 5 ∧ edgeCount gates = 6 := by
  obtain ⟨g, flow, ok⟩ : ∃ g flow, woven.toGraph = .ok (g, flow) := ⟨_, _, rfl⟩
  obtain ⟨gates, read, shaped⟩ := (toGraphShaped woven).2 g flow ok
  obtain ⟨gates', read', admissible⟩ := (toGraphShaped woven).1.mp ⟨g, flow, ok⟩
  cases read
  cases read'
  exact ⟨g, flow, _, ok, rfl, admissible, shaped, rfl, rfl⟩

example : (⟨2, [.verbatim (.cz [0, 1]), .verbatim (.cz [1, 0])]⟩ : Circuit Float).toGraph =
    .error (.fault (.edgePresent 1 0)) := rfl

end Circuit
end OneWay
