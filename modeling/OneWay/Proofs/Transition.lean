import Mathlib.Algebra.BigOperators.Ring.Finset
import OneWay.Proofs.Composition
import OneWay.Proofs.Stabilizer

/-! The matrix of a graph between the labels of its inputs and those of its outputs: a sum over the
labels of all nodes, over any commutative ring. Graphs one after the other multiply their matrices, since
the labels of the joined graph are pairs of labels of the two parts that agree where these meet. -/
namespace OneWay

namespace Labelling
variable {V : Finset Int} {z : Labelling} {n : Int}

def members (s : Finset Int) : Labelling := fun n => decide (n ∈ s)

theorem membersInj : Function.Injective members := fun s t same =>
  Finset.ext fun n => by simpa [members] using congrFun same n

def spanning (V : Finset Int) : Finset Labelling := V.powerset.map ⟨members, membersInj⟩

theorem memSpanning : z ∈ spanning V ↔ ∀ n, z n = true → n ∈ V := by
  rw [spanning, Finset.mem_map]
  constructor
  · rintro ⟨s, sub, rfl⟩ n here
    exact Finset.mem_powerset.mp sub (of_decide_eq_true here)
  · intro inside
    refine ⟨V.filter (z · = true), Finset.mem_powerset.mpr (Finset.filter_subset _ _), funext fun n => ?_⟩
    show decide (n ∈ V.filter (z · = true)) = z n
    cases label : z n with
    | false => simp [label]
    | true => simp [label, inside n label]

theorem eqSpanning {w : Labelling} (first : z ∈ spanning V) (second : w ∈ spanning V)
    (same : ∀ n ∈ V, z n = w n) :
    z = w := by
  funext n
  by_cases inside : n ∈ V
  · exact same n inside
  · have blank (u : Labelling) (mem : u ∈ spanning V) : u n = false :=
      Bool.eq_false_iff.mpr fun label => inside (memSpanning.mp mem n label)
    rw [blank z first, blank w second]

end Labelling

namespace Graph
open Labelling
variable {R : Type} [Scalar R] {A : Type*} [CommRing A] {g first second : Graph R} {c : Composition R}
  {amp : Basis R → Bool → A} {x y z w m : Labelling} {n : Int}

def signs (edges : List (Int × Int)) (z : Labelling) : A :=
  (edges.map fun e => if z e.1 && z e.2 then (-1 : A) else 1).prod

def weight (amp : Basis R → Bool → A) (g : Graph R) (z : Labelling) : A :=
  signs g.edges z *
    ∏ n ∈ g.innerNodes.toList.toFinset, (g.bases.get? n).elim 1 fun basis => amp basis (z n)

def Agrees (g : Graph R) (y x z : Labelling) : Prop :=
  (∀ e ∈ g.inputs.entries, z e.1 = x e.2) ∧ ∀ e ∈ g.outputs.entries, z e.1 = y e.2

instance : Decidable (g.Agrees y x z) := inferInstanceAs (Decidable (_ ∧ _))

def transition (amp : Basis R → Bool → A) (g : Graph R) (y x : Labelling) : A :=
  ∑ z ∈ (spanning g.support).filter (g.Agrees y x ·), g.weight amp z

theorem memInner : n ∈ g.innerNodes.toList.toFinset ↔ n ∈ g.innerNodes := by
  rw [List.mem_toFinset, NodeSet.memDef]

theorem signsPerm {xs ys : List (Int × Int)} (perm : xs.Perm ys) :
    (signs xs z : A) = signs ys z := (perm.map _).prod_eq

theorem signsRelink {names : Table Int} {edges : List (Int × Int)} :
    (signs (edges.map (relink names)) z : A) = signs edges (fun n => z (named names n)) := by
  have ends (e : Int × Int) : (z (relink names e).1 && z (relink names e).2) =
      (z (named names e.1) && z (named names e.2)) := by
    rcases le_total (named names e.1) (named names e.2) with below | below
    · rw [relink, min_eq_left below, max_eq_right below]
    · rw [relink, min_eq_right below, max_eq_left below, Bool.and_comm]
  rw [signs, signs, List.map_map]
  refine congrArg List.prod (List.map_congr_left fun e _ => ?_)
  rw [Function.comp_apply, ends]

theorem Sound.weightCongr (amp : Basis R → Bool → A) (sound : g.Sound) (same : ∀ n ∈ g.support, z n = w n) :
    g.weight amp z = g.weight amp w := by
  have edges : (signs g.edges z : A) = signs g.edges w := by
    refine congrArg List.prod (List.map_congr_left fun e mem => ?_)
    obtain ⟨left, right⟩ := sound.edgeThere mem
    rw [same _ (memSupport.mpr left), same _ (memSupport.mpr right)]
  rw [weight, weight, edges]
  refine congrArg _ (Finset.prod_congr rfl fun n inner => ?_)
  rw [same n (memSupport.mpr (memInnerNodes.mp (memInner.mp inner)).1)]

namespace Joined
variable (joined : Joined first second c)
include joined

theorem outputKeys : n ∈ c.graph.outputs.keys ↔ ∃ o ∈ second.outputs.keys, named c.second o = n := by
  rw [Table.keys, joined.outputs, List.map_map, Table.keys]
  simp only [List.mem_map, Function.comp_apply, exists_exists_and_eq_and]

theorem innerSplit (sound : second.Sound) : c.graph.innerNodes.toList.toFinset =
    first.innerNodes.toList.toFinset.image (named c.first) ∪
      second.innerNodes.toList.toFinset.image (named c.second) := by
  ext v
  simp only [memInner, Finset.mem_union, Finset.mem_image]
  rw [memInnerNodes, joined.keys, joined.outputKeys]
  constructor
  · rintro ⟨⟨n, inner, rfl⟩ | ⟨n, node, rfl⟩, measured⟩
    · exact .inl ⟨n, inner, rfl⟩
    · refine .inr ⟨n, memInnerNodes.mpr ⟨node, fun output => ?_⟩, rfl⟩
      exact measured ⟨n, output, rfl⟩
  · rintro (⟨n, inner, rfl⟩ | ⟨n, inner, rfl⟩)
    · refine ⟨.inl ⟨n, inner, rfl⟩, ?_⟩
      rintro ⟨o, output, eq⟩
      exact joined.apart n inner o (sound.outputsThere o output) eq.symm
    · obtain ⟨there, measured⟩ := memInnerNodes.mp inner
      refine ⟨.inr ⟨n, there, rfl⟩, ?_⟩
      rintro ⟨o, output, eq⟩
      have same := joined.secondApart o (sound.outputsThere o output) n
        there eq
      exact measured (same ▸ output)

theorem weightSplit (sound : second.Sound) : c.graph.weight amp z =
    second.weight amp (fun n => z (named c.second n)) *
      first.weight amp (fun n => z (named c.first n)) := by
  have node (n : Int) (inner : n ∈ second.innerNodes) : n ∈ second.nodes :=
    (memInnerNodes.mp inner).1
  have edges : (signs c.graph.edges z : A) = signs second.edges (fun n => z (named c.second n)) *
      signs first.edges (fun n => z (named c.first n)) := by
    rw [signsPerm joined.edges, ← signsRelink, ← signsRelink, signs, List.map_append, List.prod_append]
    rfl
  have disjoint : Disjoint (first.innerNodes.toList.toFinset.image (named c.first))
      (second.innerNodes.toList.toFinset.image (named c.second)) := by
    rw [Finset.disjoint_left]
    intro v left right
    obtain ⟨a, inner, rfl⟩ := Finset.mem_image.mp left
    obtain ⟨b, inner', eq⟩ := Finset.mem_image.mp right
    exact joined.apart a (memInner.mp inner) b (node b (memInner.mp inner')) eq.symm
  rw [weight, weight, weight, edges, joined.innerSplit sound, Finset.prod_union disjoint,
    Finset.prod_image, Finset.prod_image]
  · have left : ∏ n ∈ first.innerNodes.toList.toFinset,
        (c.graph.bases.get? (named c.first n)).elim 1 (fun basis => amp basis (z (named c.first n))) =
        ∏ n ∈ first.innerNodes.toList.toFinset,
          (first.bases.get? n).elim 1 fun basis => amp basis (z (named c.first n)) :=
      Finset.prod_congr rfl fun n inner => by rw [joined.firstBases n (memInner.mp inner)]
    have right : ∏ n ∈ second.innerNodes.toList.toFinset,
        (c.graph.bases.get? (named c.second n)).elim 1 (fun basis => amp basis (z (named c.second n))) =
        ∏ n ∈ second.innerNodes.toList.toFinset,
          (second.bases.get? n).elim 1 fun basis => amp basis (z (named c.second n)) :=
      Finset.prod_congr rfl fun n inner => by rw [joined.secondBases n (node n (memInner.mp inner))]
    rw [left, right]
    ring
  · intro a innerA b innerB eq
    exact joined.secondApart a (node a (memInner.mp innerA)) b (node b (memInner.mp innerB)) eq
  · intro a innerA b innerB eq
    exact joined.firstApart a (memInner.mp innerA) b (memInner.mp innerB) eq

end Joined

def inside (g : Graph R) (names : Table Int) (z : Labelling) : Labelling := fun n =>
  decide (n ∈ g.support) && z (named names n)

theorem insideAt {names : Table Int} (there : n ∈ g.support) :
    g.inside names z n = z (named names n) := by
  simp [inside, there]

theorem insideSpanning {names : Table Int} : g.inside names z ∈ spanning g.support :=
  memSpanning.mpr fun n label => by
    simp only [inside, Bool.and_eq_true, decide_eq_true_eq] at label
    exact label.1

def crossing (g : Graph R) (names : Table Int) (z : Labelling) : Labelling := fun q =>
  decide (∃ e ∈ g.inputs.entries, e.2 = q ∧ z (named names e.1) = true)

theorem Roles.crossingAt (roles : g.Roles) {names : Table Int} {i q : Int}
    (input : g.inputs.get? i = some q) : g.crossing names z q = z (named names i) := by
  rw [crossing, Bool.eq_iff_iff, decide_eq_true_iff]
  constructor
  · rintro ⟨⟨j, _⟩, mem, rfl, label⟩
    rwa [Table.sameKey roles.inputsOnce input (Table.memEntries.mp mem)]
  · exact fun label => ⟨(i, q), Table.memEntries.mpr input, rfl, label⟩

def qubits (g : Graph R) : Finset Int := ((List.range g.inputs.size).map Int.ofNat).toFinset

theorem Roles.memQubits (roles : g.Roles) {q : Int} : q ∈ g.qubits ↔ ∃ i, g.inputs.get? i = some q := by
  rw [qubits, ← roles.counted, List.mem_toFinset, Table.memValues]

theorem Roles.crossingSpanning (roles : g.Roles) {names : Table Int} :
    g.crossing names z ∈ spanning g.qubits := by
  refine memSpanning.mpr fun q label => roles.memQubits.mpr ?_
  obtain ⟨e, mem, rfl, _⟩ := of_decide_eq_true label
  exact ⟨e.1, Table.memEntries.mp mem⟩

/- Labels of both parts put together; where the parts meet the second part's are taken. -/
def glue (first second : Graph R) (c : Composition R) (p : Labelling × Labelling) : Labelling := fun v =>
  decide (∃ n ∈ first.innerNodes.toList, named c.first n = v ∧ p.2 n = true) ||
    decide (∃ n ∈ second.nodes.toList, named c.second n = v ∧ p.1 n = true)

namespace Joined
variable {p : Labelling × Labelling} (joined : Joined first second c)
include joined

theorem glueSecond (node : n ∈ second.nodes) : glue first second c p (named c.second n) = p.1 n := by
  rw [glue, Bool.eq_iff_iff, Bool.or_eq_true, decide_eq_true_iff, decide_eq_true_iff]
  constructor
  · rintro (⟨a, inner, eq, _⟩ | ⟨b, node', eq, label⟩)
    · exact absurd eq (joined.apart a inner n node)
    · rwa [← joined.secondApart b node' n node eq]
  · exact fun label => .inr ⟨n, node, rfl, label⟩

theorem glueInner (inner : n ∈ first.innerNodes) : glue first second c p (named c.first n) = p.2 n := by
  rw [glue, Bool.eq_iff_iff, Bool.or_eq_true, decide_eq_true_iff, decide_eq_true_iff]
  constructor
  · rintro (⟨a, inner', eq, label⟩ | ⟨b, node, eq, _⟩)
    · rwa [← joined.firstApart a inner' n inner eq]
    · exact absurd eq.symm (joined.apart n inner b node)
  · exact fun label => .inl ⟨n, inner, rfl, label⟩

theorem glueFirst (sound : second.Sound) (agrees1 : first.Agrees m x p.2) (agrees2 : second.Agrees y m p.1)
    (node : n ∈ first.nodes) : glue first second c p (named c.first n) = p.2 n := by
  by_cases output : n ∈ first.outputs.keys
  · obtain ⟨q, found⟩ := Table.memKeys.mp output
    obtain ⟨i, input, same⟩ := joined.meet n q found
    have there : i ∈ second.nodes := sound.inputsThere i (Table.memKeys.mpr ⟨q, input⟩)
    have left : p.2 n = m q := agrees1.2 (n, q) (Table.memEntries.mpr found)
    have right : p.1 i = m q := agrees2.1 (i, q) (Table.memEntries.mpr input)
    rw [same, joined.glueSecond there, left, right]
  · exact joined.glueInner (memInnerNodes.mpr ⟨node, output⟩)

theorem glueSpanning : glue first second c p ∈ spanning c.graph.support := by
  refine memSpanning.mpr fun v label => memSupport.mpr ((joined.keys v).mpr ?_)
  rw [glue, Bool.or_eq_true, decide_eq_true_iff, decide_eq_true_iff] at label
  rcases label with ⟨n, inner, eq, _⟩ | ⟨n, node, eq, _⟩
  · exact .inl ⟨n, inner, eq⟩
  · exact .inr ⟨n, node, eq⟩

theorem agreesIff : c.graph.Agrees y x z ↔
    (∀ e ∈ first.inputs.entries, z (named c.first e.1) = x e.2) ∧
      ∀ e ∈ second.outputs.entries, z (named c.second e.1) = y e.2 := by
  rw [Agrees, joined.inputs, joined.outputs]
  simp only [List.forall_mem_map]

theorem restrict (sound1 : first.Sound) (sound2 : second.Sound) (roles : second.Roles)
    (agrees : c.graph.Agrees y x z) :
    second.Agrees y (second.crossing c.second z) (second.inside c.second z) ∧
      first.Agrees (second.crossing c.second z) x (first.inside c.first z) := by
  obtain ⟨inputs, outputs⟩ := joined.agreesIff.mp agrees
  have key {t : Table Int} {e : Int × Int} (mem : e ∈ t.entries) : e.1 ∈ t.keys := List.mem_map_of_mem mem
  refine ⟨⟨fun e mem => ?_, fun e mem => ?_⟩, fun e mem => ?_, fun e mem => ?_⟩
  · rw [insideAt (memSupport.mpr (sound2.inputsThere _ (key mem))),
      roles.crossingAt (Table.memEntries.mp mem)]
  · rw [insideAt (memSupport.mpr (sound2.outputsThere _ (key mem))), outputs e mem]
  · rw [insideAt (memSupport.mpr (sound1.inputsThere _ (key mem))), inputs e mem]
  · obtain ⟨i, input, same⟩ := joined.meet e.1 e.2 (Table.memEntries.mp mem)
    rw [insideAt (memSupport.mpr (sound1.outputsThere _ (key mem))), same, roles.crossingAt input]

theorem extend (sound1 : first.Sound) (sound2 : second.Sound) (roles : second.Roles)
    (spanned : m ∈ spanning second.qubits) (agrees2 : second.Agrees y m p.1)
    (agrees1 : first.Agrees m x p.2) :
    c.graph.Agrees y x (glue first second c p) ∧
      second.crossing c.second (glue first second c p) = m := by
  have node {g : Graph R} (sound : g.Sound) {e : Int × Int}
      (mem : e ∈ g.inputs.entries ∨ e ∈ g.outputs.entries) : e.1 ∈ g.nodes := by
    rcases mem with mem | mem
    · exact sound.inputsThere _ (List.mem_map_of_mem mem)
    · exact sound.outputsThere _ (List.mem_map_of_mem mem)
  constructor
  · refine joined.agreesIff.mpr ⟨fun e mem => ?_, fun e mem => ?_⟩
    · rw [joined.glueFirst sound2 agrees1 agrees2 (node sound1 (.inl mem)), agrees1.1 e mem]
    · rw [joined.glueSecond (node sound2 (.inr mem)), agrees2.2 e mem]
  · refine eqSpanning roles.crossingSpanning spanned fun q qubit => ?_
    obtain ⟨i, input⟩ := roles.memQubits.mp qubit
    have mem := Table.memEntries.mpr input
    rw [roles.crossingAt input, joined.glueSecond (node sound2 (.inl mem))]
    exact agrees2.1 (i, q) mem

theorem transitionAt [DecidableEq Labelling] (sound1 : first.Sound) (sound2 : second.Sound)
    (roles : second.Roles) (spanned : m ∈ spanning second.qubits) :
    ∑ z ∈ (spanning c.graph.support).filter (c.graph.Agrees y x ·) with second.crossing c.second z = m,
      c.graph.weight amp z = second.transition amp y m * first.transition amp m x := by
  rw [transition, transition, Finset.sum_mul_sum, ← Finset.sum_product']
  refine Finset.sum_nbij' (fun z => (second.inside c.second z, first.inside c.first z))
    (glue first second c) ?_ ?_ ?_ ?_ ?_
  · intro z mem
    simp only [Finset.mem_filter] at mem
    obtain ⟨⟨_, agrees⟩, rfl⟩ := mem
    obtain ⟨agrees2, agrees1⟩ := joined.restrict sound1 sound2 roles agrees
    exact Finset.mem_product.mpr ⟨Finset.mem_filter.mpr ⟨insideSpanning, agrees2⟩,
      Finset.mem_filter.mpr ⟨insideSpanning, agrees1⟩⟩
  · intro p mem
    simp only [Finset.mem_product, Finset.mem_filter] at mem
    obtain ⟨⟨_, agrees2⟩, _, agrees1⟩ := mem
    obtain ⟨agrees, crossed⟩ := joined.extend sound1 sound2 roles spanned agrees2 agrees1
    exact Finset.mem_filter.mpr ⟨Finset.mem_filter.mpr ⟨joined.glueSpanning, agrees⟩, crossed⟩
  · intro z mem
    simp only [Finset.mem_filter] at mem
    refine eqSpanning joined.glueSpanning mem.1.1 fun v there => ?_
    rcases (joined.keys v).mp (memSupport.mp there) with ⟨n, inner, rfl⟩ | ⟨n, node, rfl⟩
    · exact (joined.glueInner inner).trans (insideAt (memSupport.mpr (memInnerNodes.mp inner).1))
    · exact (joined.glueSecond node).trans (insideAt (memSupport.mpr node))
  · intro p mem
    simp only [Finset.mem_product, Finset.mem_filter] at mem
    obtain ⟨⟨over2, agrees2⟩, over1, agrees1⟩ := mem
    refine Prod.ext (eqSpanning insideSpanning over2 fun n there => ?_)
      (eqSpanning insideSpanning over1 fun n there => ?_)
    · exact (insideAt there).trans (joined.glueSecond (memSupport.mp there))
    · exact (insideAt there).trans
        (joined.glueFirst sound2 agrees1 agrees2 (memSupport.mp there))
  · intro z _
    rw [joined.weightSplit sound2]
    exact congrArg₂ _ (sound2.weightCongr amp fun n there => (insideAt there).symm)
      (sound1.weightCongr amp fun n there => (insideAt there).symm)

end Joined

/- Graphs one after the other make a canonical graph whose matrix is the product of theirs. -/
theorem sequentialTransition (reach1 : first.Reachable) (reach2 : second.Reachable)
    (ok : first.sequential second = .ok c) : c.graph.isCanonical = true ∧
      ∀ (amp : Basis R → Bool → A) (y x : Labelling), c.graph.transition amp y x =
        ∑ m ∈ spanning second.qubits, second.transition amp y m * first.transition amp m x := by
  classical
  have roles1 := reachableRoles reach1
  have roles2 := reachableRoles reach2
  obtain ⟨canonical1, canonical2, joined⟩ := sequentialJoined roles1 roles2 ok
  refine ⟨joined.canonical roles1 roles2 canonical1 canonical2, fun amp y x => ?_⟩
  have split := Finset.sum_fiberwise_of_maps_to
    (s := (spanning c.graph.support).filter (c.graph.Agrees y x ·)) (t := spanning second.qubits)
    (g := second.crossing c.second) (fun z _ => roles2.crossingSpanning) (c.graph.weight amp)
  rw [transition, ← split]
  exact Finset.sum_congr rfl fun m mem =>
    joined.transitionAt (reachableSound reach1) (reachableSound reach2) roles2 mem

def crossover : Graph Float := after [.addNode, .addNode, .addNode, .addNode, .addEdge 0 2,
  .addEdge 1 3, .registerInput 0, .registerInput 1, .registerOutput 2 1, .registerOutput 3 0,
  .assignBasis 0 (.axial .x .plus), .assignBasis 1 (.axial .x .minus)]

def relay : Graph Float := after [.addNode, .addNode, .addNode, .addEdge 0 2, .addEdge 1 2,
  .registerInput 1, .registerInput 0, .registerOutput 0 1, .registerOutput 2 0,
  .assignBasis 1 (.axial .y .plus)]

set_option maxRecDepth 1024

theorem crossoverRelayed : crossover.Reachable ∧ relay.Reachable ∧ ∃ c,
    crossover.sequential relay = .ok c ∧ c.graph.edges = [(0, 2), (1, 3), (2, 4), (3, 4)] ∧
    c.graph.isCanonical = true ∧ ∀ (amp : Basis Float → Bool → Int) (y x : Labelling),
      c.graph.transition amp y x =
        ∑ m ∈ spanning relay.qubits, relay.transition amp y m * crossover.transition amp m x := by
  have reach1 : crossover.Reachable := ⟨_, rfl⟩
  have reach2 : relay.Reachable := ⟨_, rfl⟩
  have run : ∃ c, crossover.sequential relay = .ok c ∧
      c.graph.edges = [(0, 2), (1, 3), (2, 4), (3, 4)] := by
    simp only [sequential, copyInputs, byValueCounted (reachableRoles reach1)]
    exact ⟨_, rfl, by decide⟩
  obtain ⟨c, ok, edges⟩ := run
  obtain ⟨canonical, product⟩ := sequentialTransition (A := Int) reach1 reach2 ok
  exact ⟨reach1, reach2, c, ok, edges, canonical, product⟩

end Graph
end OneWay
