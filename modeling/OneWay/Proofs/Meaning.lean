import OneWay.Proofs.Growth
import OneWay.Proofs.State

/-! The graph of a circuit carries out the circuit. Whatever instruction comes next, the graph so far,
with its measured nodes projected out, carries out the instructions so far on the nodes that qubits
are on. -/
namespace OneWay
open ComplexConjugate

namespace Gate
open Operator
open Tensor (placeOn)

/- The qubits that an instruction's matrix acts on. A controlled Z takes the first two it names. -/
def operands {R : Type} : Gate R → List Int
  | cz qs => qs.take 2
  | gate => gate.qubits

noncomputable def operator (gate : Gate ℝ) : Operator := act gate.matrix gate.operands

variable {φ : State} {y : Labelling}

theorem czApply {p q : Int} {rest : List Int} :
    (Gate.cz (p :: q :: rest)).operator φ y = sign (y p && y q) * φ y :=
  entangleApply

theorem jApply {q : Int} {angle : ℝ} : (Gate.j q angle).operator φ y =
    (√2 : ℂ)⁻¹ * (φ (Function.update y q false) +
      Complex.exp (angle * Complex.I) * sign (y q) * φ (Function.update y q true)) := by
  show act (jMatrix angle) [q] φ y = _
  rw [actOne]
  cases y q <;>
    simp [jMatrix, Matrix.entry, Matrix.ofRows, div_eq_mul_inv] <;> ring

theorem parityPlace {n : Nat} {x : Tensor.Label} :
    sign (parity n (Tensor.placeOf n x)) = ((List.range n).map fun i => sign (x i)).prod := by
  induction n with
  | zero => rfl
  | succ n ih =>
    have bit : ((2 * Tensor.placeOf n x + (x n).toNat) % 2 == 1) = x n := by
      cases x n <;> simp [Nat.add_mod]
    have rest : (2 * Tensor.placeOf n x + (x n).toNat) / 2 = Tensor.placeOf n x := by
      have := Bool.toNat_lt (x n)
      omega
    rw [Tensor.placeSucc, parity, bit, rest, signXor, ih, List.range_succ, List.map_append,
      List.prod_append, mul_comm]
    simp

theorem parityOn {qs : List Int} :
    sign (parity qs.length (placeOn qs y)) = (qs.map fun q => sign (y q)).prod := by
  rw [placeOn, parityPlace]
  congr 1
  refine List.ext_getElem (by simp) fun i inside inside' => ?_
  have here : i < qs.length := by simpa using inside'
  simp [List.getD_eq_getElem?_getD, here]

theorem turnHalf {odd : Bool} {angle : ℝ} :
    (Amplitude.cis (Scalar.half (if odd then angle else -angle))).toComplex =
      Complex.cos (angle / 2) - Complex.I * Complex.sin (angle / 2) * sign odd := by
  rw [Amplitude.toComplexCis, Scalar.halfReal, Complex.exp_mul_I]
  cases odd with
  | false =>
    have half : (((if false then angle else -angle) / 2 : ℝ) : ℂ) = -(angle / 2) := by
      push_cast
      ring
    rw [half, Complex.cos_neg, Complex.sin_neg, signFalse]
    ring
  | true =>
    have half : (((if true then angle else -angle) / 2 : ℝ) : ℂ) = angle / 2 := by
      rw [if_pos rfl]
      push_cast
      rfl
    rw [half, signTrue]
    ring

theorem gadgetApply {qs : List Int} {angle : ℝ} : (Gate.phaseGadget qs angle).operator φ y =
    (Complex.cos (angle / 2) -
      Complex.I * Complex.sin (angle / 2) * (qs.map fun q => sign (y q)).prod) * φ y := by
  have diagonal : ∀ i < 2 ^ qs.length, ∀ j < 2 ^ qs.length,
      ((Gate.phaseGadget qs angle).matrix.entry i j).toComplex = if i = j then
        Complex.cos (angle / 2) - Complex.I * Complex.sin (angle / 2) * sign (parity qs.length i)
      else 0 := by
    intro i row j column
    have listed : (List.range (Nat.pow 2 qs.length))[i]? = some i := List.getElem?_range row
    simp only [Gate.matrix, Matrix.diagonal]
    rw [Matrix.entryOfFn (by simpa using row) (by simpa using column)]
    by_cases same : i = j
    · rw [if_pos same, if_pos same, List.getD_eq_getElem?_getD, List.getElem?_map, listed]
      exact turnHalf
    · rw [if_neg same, if_neg same, Amplitude.toComplexZero]
  show act (Gate.phaseGadget qs angle).matrix qs φ y = _
  rw [actDiagonal diagonal, parityOn]

end Gate

namespace Graph
open Operator

theorem addEdgePerm {R : Type} [Scalar R] {g next : Graph R} {a b : Int}
    (ok : g.addEdge a b = .ok next) : next.edges.Perm ((min a b, max a b) :: g.edges) := by
  obtain ⟨_, _, _, new, different, _⟩ := addEdgeOk.mp ok
  have absent : (min a b, max a b) ∉ g.edges := by
    intro old
    have near := (memEdges.mp old).1
    rcases le_total a b with below | below
    · rw [min_eq_left below, max_eq_right below] at near
      exact new (.inr near)
    · rw [min_eq_right below, max_eq_left below] at near
      exact new (.inl near)
  refine (List.perm_ext_iff_of_nodup edgesNodup (List.nodup_cons.mpr ⟨absent, edgesNodup⟩)).mpr ?_
  intro given
  obtain ⟨x, y⟩ := given
  rw [memEdges, addEdgeAdjacent ok, List.mem_cons, memEdges, Prod.mk.injEq]
  constructor
  · intro given
    obtain ⟨near, below⟩ := given
    rcases near with old | ⟨rfl, rfl⟩ | ⟨rfl, rfl⟩
    · exact .inr ⟨old, below⟩
    · exact .inl ⟨(min_eq_left below.le).symm, (max_eq_right below.le).symm⟩
    · exact .inl ⟨(min_eq_right below.le).symm, (max_eq_left below.le).symm⟩
  · intro near
    rcases near with ⟨rfl, rfl⟩ | ⟨old, below⟩
    · rcases lt_or_gt_of_ne different with below | below
      · rw [min_eq_left below.le, max_eq_right below.le]
        exact ⟨.inr (.inl ⟨rfl, rfl⟩), below⟩
      · rw [min_eq_right below.le, max_eq_left below.le]
        exact ⟨.inr (.inr ⟨rfl, rfl⟩), below⟩
    · exact ⟨.inl old, below⟩

theorem addEdgePhase {R : Type} [Scalar R] {g next : Graph R} {a b : Int}
    (ok : g.addEdge a b = .ok next) {z : Labelling} :
    phase next.edges z = sign (z a && z b) * phase g.edges z := by
  rw [phasePerm (addEdgePerm ok), phase, List.map_cons, List.prod_cons, phase]
  rcases le_total a b with below | below
  · rw [min_eq_left below, max_eq_right below]
  · rw [min_eq_right below, max_eq_left below, Bool.and_comm]

theorem attachPhase {R : Type} [Scalar R] {g next : Graph R} {m : Int} {ns : List Int}
    (ok : g.attach m ns = .ok next) {z : Labelling} :
    phase next.edges z = (ns.map fun n => sign (z n && z m)).prod * phase g.edges z := by
  induction ns generalizing g with
  | nil =>
    cases ok
    simp
  | cons n rest ih =>
    obtain ⟨h, first, later⟩ := attachCons.mp ok
    rw [ih later, addEdgePhase first, List.map_cons, List.prod_cons]
    ring

variable {g next : Graph ℝ} {m : Int} {ns : List Int} {ψ : State}

theorem addNodeEdges {R : Type} [Scalar R] {g : Graph R} (sound : g.Sound) :
    g.addNode.2.edges.Perm g.edges := by
  refine (List.perm_ext_iff_of_nodup edgesNodup edgesNodup).mpr ?_
  intro given
  obtain ⟨x, y⟩ := given
  rw [memEdges, memEdges, addNodeAdjacent sound]

theorem addNodePlus (sound : g.Sound) : g.addNode.2.plusNodes.size = g.plusNodes.size + 1 := by
  have perm : g.addNode.2.plusNodes.toList.Perm (g.next :: g.plusNodes.toList) := by
    have new : g.next ∉ g.plusNodes.toList := fun mem => sound.nextFresh (memPlusNodes.mp mem).1
    refine (List.perm_ext_iff_of_nodup (NodeSet.nodup _)
      (List.nodup_cons.mpr ⟨new, NodeSet.nodup _⟩)).mpr ?_
    intro n
    rw [List.mem_cons, ← NodeSet.memDef, ← NodeSet.memDef, memPlusNodes, memPlusNodes]
    have keys : n ∈ g.addNode.2.nodes ↔ n = g.next ∨ n ∈ g.nodes := addNodeNodes
    have outside : n = g.next → n ∉ g.inputs.keys := fun same input =>
      sound.nextFresh (sound.inputsThere _ (same ▸ input))
    rw [keys, or_and_right]
    exact or_congr (and_iff_left_of_imp outside) Iff.rfl
  exact perm.length_eq

theorem resourceAttach (ok : g.attach m ns = .ok next) :
    next.resource ψ = (fun z => (ns.map fun n => sign (z n && z m)).prod) * g.resource ψ := by
  obtain ⟨_, inputs, _⟩ := attachRest ok
  have plus : next.plusNodes = g.plusNodes := by
    refine NodeSet.eqOfMem fun n => ?_
    rw [memPlusNodes, memPlusNodes, attachKeys ok, inputs]
  funext z
  rw [Pi.mul_apply, resourceApply, resourceApply, attachPhase ok, inputs, plus]
  ring

theorem resourceAddNode (sound : g.Sound) :
    g.addNode.2.resource ψ = (√2 : ℂ)⁻¹ • g.resource ψ := by
  have same : ∀ z, phase g.addNode.2.edges z = phase g.edges z := fun z =>
    phasePerm (addNodeEdges sound)
  have inputs : g.addNode.2.inputs = g.inputs := rfl
  funext z
  rw [Pi.smul_apply, smul_eq_mul, resourceApply, resourceApply, addNodePlus sound, same, inputs, pow_succ]
  ring

end Graph

namespace Circuit.Growth
open Operator
variable {s s' : Growth ℝ} {qubits : Nat} {z : Labelling} {q n : Int}

def lines (s : Growth ℝ) (z : Labelling) : Labelling := fun q => match s.front.get? q with
  | some n => z n
  | none => false

theorem linesAt (onto : s.front.get? q = some n) : s.lines z q = z n := by
  rw [lines, onto]

theorem linesUpdate (grown : Grown qubits s) (onto : s.front.get? q = some n) {b : Bool} :
    s.lines (Function.update z n b) = Function.update (s.lines z) q b := by
  funext p
  by_cases here : p = q
  · rw [here, Function.update_self, linesAt onto, Function.update_self]
  · rw [Function.update_of_ne here]
    unfold lines
    cases found : s.front.get? p with
    | none => rfl
    | some m =>
      have other : m ≠ n := fun same => here (grown.frontApart p q m found (same ▸ onto))
      exact Function.update_of_ne other b z

theorem linesMoved {g : Graph ℝ} {flow : Table NodeSet} :
    lines ⟨g, s.front.set q n, flow⟩ z = Function.update (s.lines z) q (z n) := by
  funext p
  unfold lines
  by_cases here : p = q
  · simp [here]
  · simp [here]

theorem linesElsewhere (away : ∀ q, s.front.get? q ≠ some n) {b : Bool} :
    s.lines (Function.update z n b) = s.lines z := by
  funext p
  unfold lines
  cases found : s.front.get? p with
  | none => rfl
  | some m =>
    have other : m ≠ n := fun same => away p (same ▸ found)
    exact Function.update_of_ne other b z

/- The nodes with a basis projected out, the graph does to the nodes that qubits are on what the
instructions do to the qubits. -/
structure Carries (gates : List (Gate ℝ)) (s : Growth ℝ) (kets : List (Int × Ket ℝ)) (c : ℂ) :
    Prop where
  once : (kets.map Prod.fst).Nodup
  based : ∀ n k, (n, k) ∈ kets ↔ ∃ basis, s.graph.bases.get? n = some basis ∧ basis.vector = .ok k
  total : ∀ n basis, s.graph.bases.get? n = some basis → ∃ k, basis.vector = .ok k
  scale : c ≠ 0
  same : ∀ ψ z, projectAll kets (s.graph.resource ψ) z =
    c * inTurn (gates.map Gate.operator) ψ (s.lines z)

variable {gates : List (Gate ℝ)} {kets : List (Int × Ket ℝ)} {c : ℂ}

theorem Carries.ketBased (carries : Carries gates s kets c) {n : Int} (mem : n ∈ kets.map Prod.fst) :
    n ∈ s.graph.bases.keys := by
  obtain ⟨⟨m, k⟩, here, rfl⟩ := List.mem_map.mp mem
  obtain ⟨basis, found, _⟩ := (carries.based m k).mp here
  exact Table.memKeys.mpr ⟨basis, found⟩

theorem Carries.withKet (carries : Carries gates s kets c) {basis : Basis ℝ} {k : Ket ℝ}
    (new : n ∉ s.graph.bases.keys) (vector : basis.vector = .ok k) {bases : Table (Basis ℝ)}
    (eq : bases = s.graph.bases.set n basis) :
    ((kets ++ [(n, k)]).map Prod.fst).Nodup ∧
      (∀ m l, (m, l) ∈ kets ++ [(n, k)] ↔ ∃ basis, bases.get? m = some basis ∧ basis.vector = .ok l) ∧
      ∀ m basis, bases.get? m = some basis → ∃ l, basis.vector = .ok l := by
  have absent : n ∉ kets.map Prod.fst := fun mem => new (carries.ketBased mem)
  have get : ∀ m, bases.get? m = if m = n then some basis else s.graph.bases.get? m := by
    intro m
    rw [eq, Table.getSet]
  refine ⟨?_, ?_, ?_⟩
  · rw [List.map_append, List.map_singleton, List.nodup_append]
    refine ⟨carries.once, List.nodup_singleton n, ?_⟩
    intro m old m' mem same
    have here : m = n := same.trans (List.mem_singleton.mp mem)
    exact absent (here ▸ old)
  · intro m l
    rw [List.mem_append, List.mem_singleton, get, carries.based]
    by_cases here : m = n
    · have none : s.graph.bases.get? m = none := Table.getNone.mpr (here ▸ new)
      simp only [here, if_true, Option.some.injEq, exists_eq_left', vector, Except.ok.injEq,
        Prod.mk.injEq, true_and]
      rw [here] at none
      constructor
      · intro mem
        rcases mem with ⟨_, found, _⟩ | same
        · rw [none] at found
          cases found
        · exact same.symm
      · exact fun same => .inr same.symm
    · simp [here]
  · intro m other found
    rw [get] at found
    split at found
    · cases found
      exact ⟨k, vector⟩
    · exact carries.total m other found

theorem inTurnGates {gate : Gate ℝ} {ψ : State} {y : Labelling} :
    inTurn ((gates ++ [gate]).map Gate.operator) ψ y =
      gate.operator (inTurn (gates.map Gate.operator) ψ) y := by
  rw [List.map_append, List.map_singleton, inTurnSnoc]
  rfl

theorem Carries.j (grown : Grown qubits s) (carries : Carries gates s kets c) {angle : ℝ} {g : Graph ℝ}
    (onto : s.front.get? q = some n) (joined : s.graph.addNode.2.attach s.graph.next [n] = .ok g) :
    ∃ k, Carries (gates ++ [.j q angle])
      ⟨{ g with bases := g.bases.set n (.planar .xy (-angle)) }, s.front.set q s.graph.next,
        s.flow.set n (.singleton s.graph.next)⟩ (kets ++ [(n, k)]) (c * (√2 : ℂ)⁻¹) := by
  obtain ⟨k, vector, low, high⟩ : ∃ k, (Basis.planar .xy (-angle)).vector = .ok k ∧
      k.zero.toComplex = (√2 : ℂ)⁻¹ ∧
      k.one.toComplex = Complex.exp ((-angle : ℝ) * Complex.I) * (√2 : ℂ)⁻¹ := Basis.vectorAtXy
  obtain ⟨_, _, _, bases, _⟩ := Graph.attachRest joined
  obtain ⟨once, based, total⟩ := carries.withKet (grown.frontFree q n onto) vector
    (congrArg (Table.set · n (.planar .xy (-angle))) bases)
  have notFresh : s.graph.next ≠ n := (grown.fresh onto).symm
  refine ⟨k, once, based, total, mul_ne_zero carries.scale (by simp), ?_⟩
  intro ψ z
  have resource : g.resource ψ =
      (fun z => (√2 : ℂ)⁻¹ * sign (z n && z s.graph.next)) * s.graph.resource ψ := by
    rw [Graph.resourceAttach joined, Graph.resourceAddNode grown.sound]
    funext z
    simp only [Pi.mul_apply, Pi.smul_apply, smul_eq_mul, List.map_singleton, List.prod_singleton]
    ring
  have blind : Blind (kets.map Prod.fst)
      (fun z => (√2 : ℂ)⁻¹ * sign (z n && z s.graph.next)) := by
    intro m mem z b
    have old := carries.ketBased mem
    have atN : n ≠ m := fun same => grown.frontFree q n onto (same ▸ old)
    have atFresh : s.graph.next ≠ m := fun same => grown.freshBase (same ▸ old)
    simp only [Function.update_of_ne atN, Function.update_of_ne atFresh]
  have lowConj : conj k.zero.toComplex = (√2 : ℂ)⁻¹ := by
    rw [low, map_inv₀, Complex.conj_ofReal]
  have highConj : conj k.one.toComplex = Complex.exp (angle * Complex.I) * (√2 : ℂ)⁻¹ := by
    rw [high, map_mul, map_inv₀, Complex.conj_ofReal, ← Complex.exp_conj, map_mul, Complex.conj_ofReal,
      Complex.conj_I]
    push_cast
    rw [neg_mul_neg]
  show projectAll (kets ++ [(n, k)]) (g.resource ψ) z = _
  rw [projectAllSnoc, Module.End.mul_apply, resource, projectAllFactor blind, projectApply, inTurnGates,
    Gate.jApply, linesMoved]
  simp only [Pi.mul_apply, carries.same, linesUpdate grown onto, Function.update_self,
    Function.update_of_ne notFresh, Function.update_idem, lowConj, highConj, Bool.false_and,
    Bool.true_and, signFalse]
  ring

theorem Carries.cz (grown : Grown qubits s) (carries : Carries gates s kets c) {p a b : Int}
    {rest : List Int} {g : Graph ℝ} (first : s.front.get? p = some a) (second : s.front.get? q = some b)
    (joined : s.graph.attach b [a] = .ok g) :
    Carries (gates ++ [.cz (p :: q :: rest)]) { s with graph := g } kets c := by
  obtain ⟨_, _, _, bases, _⟩ := Graph.attachRest joined
  have resource : ∀ ψ, g.resource ψ = (fun z => sign (z a && z b)) * s.graph.resource ψ := by
    intro ψ
    rw [Graph.resourceAttach joined]
    simp only [List.map_singleton, List.prod_singleton]
  have blind : Blind (kets.map Prod.fst) (fun z => sign (z a && z b)) := by
    intro m mem z bit
    have old := carries.ketBased mem
    have atA : a ≠ m := fun same => grown.frontFree p a first (same ▸ old)
    have atB : b ≠ m := fun same => grown.frontFree q b second (same ▸ old)
    simp only [Function.update_of_ne atA, Function.update_of_ne atB]
  refine ⟨carries.once, ?_, ?_, carries.scale, ?_⟩
  · intro n k
    rw [carries.based, bases]
  · intro n basis
    rw [bases]
    exact carries.total n basis
  · intro ψ z
    have here : lines { s with graph := g } z = s.lines z := rfl
    rw [resource, projectAllFactor blind, inTurnGates, Gate.czApply, Pi.mul_apply, carries.same, here,
      linesAt first, linesAt second]
    ring

theorem frontSigns {qs ns : List Int}
    (onto : List.Forall₂ (fun q n => s.front.get? q = some n) qs ns) :
    (qs.map fun q => sign (s.lines z q)).prod = (ns.map fun n => sign (z n)).prod := by
  induction onto with
  | nil => rfl
  | cons here _ ih => rw [List.map_cons, List.map_cons, List.prod_cons, List.prod_cons, ih, linesAt here]

theorem hangingSigns {ns : List Int} {m : Int} (apart : m ∉ ns) {b : Bool} :
    (ns.map fun n => sign (Function.update z m b n && Function.update z m b m)).prod =
      if b then (ns.map fun n => sign (z n)).prod else 1 := by
  have each : (ns.map fun n => sign (Function.update z m b n && Function.update z m b m)) =
      ns.map fun n => if b then sign (z n) else 1 := by
    refine List.map_congr_left fun n mem => ?_
    have other : n ≠ m := fun same => apart (same ▸ mem)
    rw [Function.update_of_ne other, Function.update_self]
    cases b <;> simp
  rw [each]
  cases b <;> simp

theorem Carries.gadget (grown : Grown qubits s) (carries : Carries gates s kets c) {angle : ℝ}
    {qs ns : List Int} {g : Graph ℝ}
    (onto : List.Forall₂ (fun q n => s.front.get? q = some n) qs ns)
    (joined : Graph.attach { s.graph.addNode.2 with
      bases := s.graph.bases.set s.graph.next (.planar .yz angle) } s.graph.next ns = .ok g) :
    ∃ k, Carries (gates ++ [.phaseGadget qs angle])
      ⟨g, s.front, s.flow.set s.graph.next (.singleton s.graph.next)⟩ (kets ++ [(s.graph.next, k)])
      (c * (√2 : ℂ)⁻¹) := by
  obtain ⟨k, vector, low, high⟩ : ∃ k, (Basis.planar .yz angle).vector = .ok k ∧
      k.zero.toComplex = Complex.cos (angle / 2) ∧
      k.one.toComplex = Complex.I * Complex.sin (angle / 2) := Basis.vectorAtYz
  obtain ⟨_, _, _, bases, _⟩ := Graph.attachRest joined
  obtain ⟨once, based, total⟩ := carries.withKet grown.freshBase vector bases
  have onFront : ∀ n ∈ ns, ∃ q, s.front.get? q = some n := by
    intro n mem
    obtain ⟨q, _, found⟩ := Result.memSource onto mem
    exact ⟨q, found⟩
  have apart : s.graph.next ∉ ns := by
    intro mem
    obtain ⟨q, found⟩ := onFront _ mem
    exact grown.fresh found rfl
  refine ⟨k, once, based, total, mul_ne_zero carries.scale (by simp), ?_⟩
  intro ψ z
  have resource : g.resource ψ =
      (fun z => (√2 : ℂ)⁻¹ * (ns.map fun n => sign (z n && z s.graph.next)).prod) *
        s.graph.resource ψ := by
    have added : Graph.resource { s.graph.addNode.2 with
        bases := s.graph.bases.set s.graph.next (.planar .yz angle) } ψ =
        (√2 : ℂ)⁻¹ • s.graph.resource ψ := Graph.resourceAddNode grown.sound
    rw [Graph.resourceAttach joined, added]
    funext z
    simp only [Pi.mul_apply, Pi.smul_apply, smul_eq_mul]
    ring
  have blind : Blind (kets.map Prod.fst)
      (fun z => (√2 : ℂ)⁻¹ * (ns.map fun n => sign (z n && z s.graph.next)).prod) := by
    intro m mem z b
    have old := carries.ketBased mem
    have atFresh : s.graph.next ≠ m := fun same => grown.freshBase (same ▸ old)
    simp only [Function.update_of_ne atFresh]
    congr 2
    refine List.map_congr_left fun n here => ?_
    obtain ⟨q, found⟩ := onFront n here
    have atN : n ≠ m := fun same => grown.frontFree q n found (same ▸ old)
    rw [Function.update_of_ne atN]
  have lowConj : conj k.zero.toComplex = Complex.cos (angle / 2) := by
    rw [low, ← Complex.cos_conj, map_div₀, Complex.conj_ofReal, Complex.conj_ofNat]
  have highConj : conj k.one.toComplex = -Complex.I * Complex.sin (angle / 2) := by
    rw [high, map_mul, Complex.conj_I, ← Complex.sin_conj, map_div₀, Complex.conj_ofReal,
      Complex.conj_ofNat]
  have away : ∀ q, s.front.get? q ≠ some s.graph.next := fun q found => grown.fresh found rfl
  have here : lines ⟨g, s.front, s.flow.set s.graph.next (.singleton s.graph.next)⟩ z = s.lines z := rfl
  rw [projectAllSnoc, Module.End.mul_apply, resource, projectAllFactor blind, projectApply, inTurnGates,
    Gate.gadgetApply, here, frontSigns onto]
  simp only [Pi.mul_apply, carries.same, linesElsewhere away, hangingSigns apart, lowConj, highConj]
  simp only [if_true, Bool.false_eq_true, if_false]
  ring

theorem carriesSeed : Carries [] (seed qubits) [] 1 := by
  have edges : (seed qubits : Growth ℝ).graph.edges = [] := by
    refine List.eq_nil_iff_forall_not_mem.mpr fun e mem => ?_
    have near := (Graph.memEdges.mp mem).1
    rw [seedAdjacent] at near
    exact NodeSet.notMemEmpty near
  have plus : (seed qubits : Growth ℝ).graph.plusNodes = ∅ := by
    refine NodeSet.eqOfMem fun n => ?_
    rw [Graph.memPlusNodes]
    constructor
    · intro given
      obtain ⟨here, notInput⟩ := given
      have input : (seed qubits : Growth ℝ).front.get? n = some n := seedGet.mpr ⟨rfl, seedNode.mp here⟩
      exact absurd (Table.memKeys.mpr ⟨n, input⟩) notInput
    · exact fun mem => absurd mem NodeSet.notMemEmpty
  have labels : ∀ z, gather (seed qubits : Growth ℝ).graph.inputs z = (seed qubits).lines z := by
    intro z
    funext q
    have entry : ∀ e, e ∈ (seed qubits : Growth ℝ).graph.inputs.entries ↔
        e.2 = e.1 ∧ 0 ≤ e.1 ∧ e.1 < qubits := fun e => Table.memEntries.trans (seedGet (R := ℝ))
    rw [gather, Bool.eq_iff_iff, List.any_eq_true]
    constructor
    · intro given
      obtain ⟨e, mem, holds⟩ := given
      obtain ⟨same, inside⟩ := (entry e).mp mem
      rw [Bool.and_eq_true, beq_iff_eq, same] at holds
      rw [linesAt (seedGet.mpr ⟨rfl, holds.1 ▸ inside⟩), ← holds.1]
      exact holds.2
    · intro holds
      cases found : (seed qubits : Growth ℝ).front.get? q with
      | none =>
        rw [lines, found] at holds
        cases holds
      | some n =>
        rw [linesAt found] at holds
        obtain ⟨same, inside⟩ := seedGet.mp found
        refine ⟨(q, q), (entry (q, q)).mpr ⟨rfl, inside⟩, ?_⟩
        rw [same] at holds
        simp [holds]
  refine ⟨List.nodup_nil, ?_, ?_, one_ne_zero, ?_⟩
  · intro n k
    constructor
    · intro mem
      cases mem
    · intro given
      obtain ⟨_, found, _⟩ := given
      cases found
  · intro n basis found
    cases found
  · intro ψ z
    have projected : projectAll [] ((seed qubits : Growth ℝ).graph.resource ψ) =
        (seed qubits : Growth ℝ).graph.resource ψ := rfl
    have none : (∅ : NodeSet).size = 0 := rfl
    rw [projected, Graph.resourceApply, edges, plus, loadApply, labels, none]
    simp [phase]

theorem Carries.step (grown : Grown qubits s) (carries : Carries gates s kets c) {gate : Gate ℝ}
    (step : Step s gate s') : ∃ kets c, Carries (gates ++ [gate]) s' kets c := by
  cases step with
  | j onto joined =>
    obtain ⟨k, after⟩ := carries.j grown onto joined
    exact ⟨_, _, after⟩
  | cz first second joined => exact ⟨_, _, carries.cz grown first second joined⟩
  | gadget onto joined =>
    obtain ⟨k, after⟩ := carries.gadget grown onto joined
    exact ⟨_, _, after⟩

theorem carriesRun (ok : gates.foldlM addInstruction (seed qubits) = .ok s) :
    Grown qubits s ∧ ∃ kets c, Carries gates s kets c := by
  have start : ∃ kets c, Carries [] (seed qubits) kets c := ⟨[], 1, carriesSeed⟩
  refine grownRun (P := fun done t => ∃ kets c, Carries done t kets c) start ?_ ok
  intro done gate t t' grown given step
  obtain ⟨kets, c, carries⟩ := given
  exact carries.step grown step

theorem Grown.linesOutputs (grown : Grown qubits s) {g : Graph ℝ} (ok : s.finish = .ok g)
    {y : Labelling} (inside : y.Within qubits) :
    s.lines (spread g.outputs y) = y := by
  obtain ⟨_, _, outputs⟩ := grown.finish ok
  funext q
  cases found : s.front.get? q with
  | some n => rw [linesAt found, spread, (outputs n q).mpr found]
  | none =>
    rw [lines, found]
    have outside : q ∉ (seed qubits : Growth ℝ).front.keys := by
      rw [← grown.qubitsKept]
      exact Table.getNone.mp found
    cases bit : y q with
    | false => rfl
    | true => exact absurd (Table.memKeys.mpr ⟨q, seedGet.mpr ⟨rfl, inside q bit⟩⟩) outside

theorem Carries.finish (grown : Grown qubits s) (carries : Carries gates s kets c) {g : Graph ℝ}
    (ok : s.finish = .ok g) : ∃ u, g.carry = .ok u ∧
      ∀ (ψ : State) (y : Labelling), y.Within qubits →
        u ψ y = c * inTurn (gates.map Gate.operator) ψ y := by
  obtain ⟨same, _, _⟩ := grown.finish ok
  have bases : g.bases = s.graph.bases := by rw [same]
  have resource : g.resource = s.graph.resource := by
    rw [same]
    rfl
  obtain ⟨all, found⟩ : ∃ all, g.kets = .ok all := by
    refine Graph.ketsTotal fun n inner => ?_
    obtain ⟨basis, based⟩ := Table.memKeys.mp ((grown.innerBased ok).mp inner)
    obtain ⟨k, vector⟩ := carries.total n basis based
    exact ⟨basis, k, bases ▸ based, vector⟩
  have once : (all.map Prod.fst).Nodup := by
    rw [Graph.ketsNodes found]
    exact NodeSet.nodup _
  have perm : all.Perm kets := by
    refine (List.perm_ext_iff_of_nodup (List.Nodup.of_map _ once) (List.Nodup.of_map _ carries.once)).mpr ?_
    intro given
    obtain ⟨n, k⟩ := given
    rw [Graph.memKets found, carries.based, grown.innerBased ok, bases]
    refine and_iff_right_of_imp fun given => ?_
    obtain ⟨basis, based, _⟩ := given
    exact Table.memKeys.mpr ⟨basis, based⟩
  refine ⟨_, Result.bindOk.mpr ⟨all, found, rfl⟩, fun ψ y inside => ?_⟩
  rw [Module.End.mul_apply, readApply, Module.End.mul_apply, projectAllPerm perm once, resource,
    carries.same, grown.linesOutputs ok inside]

end Circuit.Growth

namespace Circuit
open Operator

theorem graphCarriesCircuit {c : Circuit ℝ} {g : Graph ℝ} {flow : Table NodeSet}
    (ok : c.toGraph = .ok (g, flow)) :
    ∃ gates u, c.instructions = .ok gates ∧ g.carry = .ok u ∧ ∃ k : ℂ, k ≠ 0 ∧
      ∀ (ψ : State) (y : Labelling), y.Within c.qubits.toNat →
        u ψ y = k * inTurn (gates.map Gate.operator) ψ y := by
  obtain ⟨gates, s, read, ran, finished, _⟩ := toGraphSource ok
  obtain ⟨grown, kets, k, carries⟩ := Growth.carriesRun ran
  obtain ⟨u, carried, same⟩ := carries.finish grown finished
  exact ⟨gates, u, read, carried, k, carries.scale, same⟩

noncomputable def twoLines : Circuit ℝ :=
  ⟨2, [.verbatim (.j 0 Real.pi), .verbatim (.cz [1, 0]),
    .verbatim (.phaseGadget [0, 1] (Scalar.half Real.pi)), .verbatim (.j 1 (-Real.pi)),
    .expanded (.cnot [0, 1])]⟩

theorem twoLinesCarried : ∃ g flow gates u, twoLines.toGraph = .ok (g, flow) ∧
    twoLines.instructions = .ok gates ∧ g.carry = .ok u ∧ ∃ k : ℂ, k ≠ 0 ∧
      ∀ (ψ : State) (y : Labelling), y.Within 2 →
        u ψ y = k * inTurn (gates.map Gate.operator) ψ y := by
  obtain ⟨g, flow, ok⟩ : ∃ g flow, twoLines.toGraph = .ok (g, flow) := ⟨_, _, rfl⟩
  obtain ⟨gates, u, rest⟩ := graphCarriesCircuit ok
  exact ⟨g, flow, gates, u, ok, rest⟩

end Circuit
end OneWay
