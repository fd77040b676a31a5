import Mathlib.Data.Set.Finite.Basic
import OneWay.Proofs.Focus
import OneWay.Proofs.Pipeline
import OneWay.Proofs.Resource

/-! Which flows can be compiled. An order by batches exists just when no node waits for itself over any
number of steps. The check before it finds what goes round in one step or two; a flow that goes round in
more is refused for want of an order. -/
namespace OneWay

namespace Result
variable {ε α β : Type}

theorem forMError {f : α → Except ε Unit} {xs : List α} {e : ε}
    (refused : xs.forM f = .error e) : ∃ x ∈ xs, f x = .error e := by
  induction xs with
  | nil => cases refused
  | cons x xs ih =>
    have step : (x :: xs).forM f = f x >>= fun _ => xs.forM f := rfl
    rcases bindError.mp (step ▸ refused) with head | ⟨_, _, tail⟩
    · exact ⟨x, by simp, head⟩
    · obtain ⟨y, mem, here⟩ := ih tail
      exact ⟨y, List.mem_cons_of_mem _ mem, here⟩

end Result

theorem acyclicOfRising {r : Int → Int → Prop} (place : Int → Int)
    (rises : ∀ n m, r n m → place n < place m) (n : Int) : ¬ Relation.TransGen r n n := by
  have path : ∀ m, Relation.TransGen r n m → place n < place m := by
    intro m steps
    induction steps with
    | single first => exact rises _ _ first
    | tail _ last ih => exact ih.trans (rises _ _ last)
  exact fun cycle => (path n cycle).false

namespace Dependency
open OneWay.Graph (setAt)
open Relation (TransGen)
variable {d : Dependency} {n m : Int} {xs : List Int}

def Awaits (d : Dependency) (n m : Int) : Prop := m ∈ setAt d n

theorem Ordered.before (ordered : Ordered d xs) (mem : n ∈ xs) (needed : d.Awaits n m) :
    xs.idxOf m < xs.idxOf n := by
  induction ordered with
  | nil => cases mem
  | @snoc xs last before fresh ready ih =>
    rcases List.mem_append.mp mem with early | late
    · have member : m ∈ xs := orderedClosed before early m needed
      rw [List.idxOf_append_of_mem member, List.idxOf_append_of_mem early]
      exact ih early
    · obtain rfl := List.mem_singleton.mp late
      have member : m ∈ xs := ready m needed
      rw [List.idxOf_append_of_mem member, List.idxOf_append_of_notMem fresh]
      exact Nat.lt_add_right _ (List.idxOf_lt_length_iff.mpr member)

theorem orderAcyclic (ok : d.order = .ok xs) : ¬ TransGen d.Awaits n n := by
  obtain ⟨ordered, all⟩ := orderSpec ok
  refine acyclicOfRising (fun n => -(xs.idxOf n : Int)) (fun a b needed => ?_) n
  have listed : a ∈ xs := (all a).mpr (memVertices.mpr (.inl (memberKey needed)))
  have before := ordered.before listed needed
  omega

theorem orderOfAcyclic (acyclic : ∀ n, ¬ TransGen d.Awaits n n) : ∃ xs, d.order = .ok xs := by
  by_contra none
  obtain ⟨rest, some, waits⟩ := orderNone fun xs ok => none ⟨xs, ok⟩
  obtain ⟨n, mem⟩ := List.exists_mem_of_ne_nil rest some
  -- Finitely many nodes without a cycle: one of them waits for none of the others.
  let reached (a b : rest.toFinset) : Prop := TransGen d.Awaits b a
  have trans : IsTrans rest.toFinset reached := ⟨fun _ _ _ first second => second.trans first⟩
  have irrefl : Std.Irrefl reached := ⟨fun a cycle => acyclic a cycle⟩
  obtain ⟨last, _, alone⟩ := (Finite.wellFounded_of_trans_of_irrefl reached).has_min Set.univ
    ⟨⟨n, List.mem_toFinset.mpr mem⟩, trivial⟩
  obtain ⟨m, needed, again⟩ := waits last (List.mem_toFinset.mp last.2)
  exact alone ⟨m, List.mem_toFinset.mpr again⟩ trivial (.single needed)

theorem orderCyclic (cycle : TransGen d.Awaits n n) : d.order = .error .cyclic := by
  rw [orderEq]
  split
  · rename_i full
    have ok : d.order = .ok d.sequence := by rw [orderEq, if_pos full]
    exact absurd cycle (orderAcyclic ok)
  · rfl

theorem checkListsIff {lists : Table (List Int)} (closed : ∀ n m, Leads lists n m → m ∈ lists.keys) :
    checkLists lists = .ok () ↔ ¬ ∃ n m, Leads lists n m ∧ Leads lists m n := by
  rw [checkListsOk]
  constructor
  · rintro passed ⟨n, m, forth, back⟩
    exact (passed n m forth).2 back
  · exact fun none n m forth => ⟨closed n m forth, fun back => none ⟨n, m, forth, back⟩⟩

theorem checkListsRefused {lists : Table (List Int)} {fault : Fault}
    (closed : ∀ n m, Leads lists n m → m ∈ lists.keys) (refused : checkLists lists = .error fault) :
    ∃ n m, fault = .cyclePair n m ∧ Leads lists n m ∧ Leads lists m n := by
  obtain ⟨⟨n, children⟩, entry, refused⟩ := Result.forMError refused
  obtain ⟨m, mem, refused⟩ := Result.forMError refused
  have forth : Leads lists n m := leadsEntry.mpr ⟨children, entry, mem⟩
  obtain ⟨back, found⟩ := Table.memKeys.mp (closed n m forth)
  rw [found] at refused
  by_cases again : n ∈ back
  · refine ⟨n, m, ?_, forth, ?_⟩
    · simpa [again] using refused.symm
    · rw [Leads, found]
      exact again
  · simp [again] at refused

theorem listedKeys (closed : ∀ n m, d.Awaits n m → m ∈ d.keys) :
    ∀ n m, Leads (d.mapValues fun _ s => s.toList) n m → m ∈ (d.mapValues fun _ s => s.toList).keys := by
  intro n m leads
  rw [Table.keysMapValues]
  exact closed n m (leadsSets.mp leads)

theorem checkIff (closed : ∀ n m, d.Awaits n m → m ∈ d.keys) :
    d.check = .ok () ↔ ¬ ∃ n m, d.Awaits n m ∧ d.Awaits m n := by
  rw [check, checkListsIff (listedKeys closed)]
  simp only [leadsSets, Awaits]

theorem checkRefused {fault : Fault} (closed : ∀ n m, d.Awaits n m → m ∈ d.keys)
    (refused : d.check = .error fault) : ∃ n m, fault = .cyclePair n m ∧ d.Awaits n m ∧ d.Awaits m n := by
  simpa only [leadsSets, Awaits] using checkListsRefused (listedKeys closed) refused

end Dependency

namespace Graph
open Relation (TransGen)
variable {R : Type} [Scalar R] {g : Graph R} {xflow zflow : Flow} {zgiven : Option Flow}
  {x z x' z' : Table NodeSet} {given : Option (Table NodeSet)} {n m : Int} {correct : Bool}

def Informs (g : Graph R) (x : Table NodeSet) (given : Option (Table NodeSet)) (n m : Int) : Prop :=
  n ∈ g.innerNodes ∧ (m ∈ setAt x n ∨
    m ≠ n ∧ given.elim (Odd (g.hits (setAt x n) m)) fun z => m ∈ setAt z n)

theorem zCorrectionsAbsent (ok : g.zCorrections xflow none = .ok zflow) (setsX : xflow.sets = .ok x)
    (setsZ : zflow.sets = .ok z) (absent : x.get? n = none) : z.get? n = none := by
  simp only [zCorrections, Result.bindOk, Result.pureOk] at ok
  obtain ⟨t, collected, rfl⟩ := ok
  have collected : xflow.entries.foldlM (fun (t : Table NodeSet) e => do
      return t.set e.1 (← e.2.asSet >>= g.oddNeighbors)) ∅ = .ok t := by
    simpa only [bind_assoc] using collected
  have unlisted : xflow.get? n = none := by rw [Flow.getSets setsX, absent, Option.map_none]
  rw [Flow.getOfSets setsZ, Table.getNone, (Table.getCollect collected).1, ← Table.getNone]
  exact unlisted

theorem memDefault (ok : g.zCorrections xflow none = .ok zflow) (setsX : xflow.sets = .ok x)
    (setsZ : zflow.sets = .ok z) : m ∈ setAt z n ↔ Odd (g.hits (setAt x n) m) := by
  cases here : x.get? n with
  | none =>
    have noX : setAt x n = ∅ := by rw [setAt, here, Option.getD_none]
    have noZ : setAt z n = ∅ := by rw [setAt, zCorrectionsAbsent ok setsX setsZ here, Option.getD_none]
    have unhit : g.hits ∅ m = 0 := rfl
    rw [noX, noZ, unhit]
    exact iff_of_false NodeSet.notMemEmpty Nat.not_odd_zero
  | some s =>
    obtain ⟨odd, found, there⟩ := zCorrectionsDefault ok setsX setsZ here
    simp only [setAt, here, there, Option.getD_some]
    exact memOddNeighbors found

theorem informed (sound : g.Sound) (targets : ∀ n, ∀ m ∈ setAt x n, m ∈ g.nodes) (given : Option (Table NodeSet)) :
    ∃ zflow x' z', g.zCorrections (.ofSets x) (given.map .ofSets) = .ok zflow ∧
      (Flow.ofSets x).sets = .ok x' ∧ zflow.sets = .ok z' ∧
      ∀ n m, (g.dependencies x' z').Awaits n m ↔ g.Informs x given n m := by
  obtain ⟨x', setsX⟩ := Flow.setsOfSets x
  have sameX : ∀ n, setAt x' n = setAt x n := fun n => by rw [setAt, setAt, Flow.getOfSets setsX]
  have built : ∃ zflow z', g.zCorrections (.ofSets x) (given.map .ofSets) = .ok zflow ∧
      zflow.sets = .ok z' ∧ ∀ n m, m ∈ setAt z' n ↔
        given.elim (Odd (g.hits (setAt x n) m)) fun z => m ∈ setAt z n := by
    cases given with
    | some z =>
      obtain ⟨z', setsZ⟩ := Flow.setsOfSets z
      refine ⟨.ofSets z, z', rfl, setsZ, fun n m => ?_⟩
      rw [setAt, Flow.getOfSets setsZ]
      rfl
    | none =>
      have there : ∀ n s, x'.get? n = some s → ∀ m ∈ s, m ∈ g.nodes := by
        intro n s found m mem
        refine targets n m ?_
        rw [← sameX, setAt, found]
        exact mem
      obtain ⟨zflow, z', corrections, setsZ⟩ := zCorrectionsTotal sound setsX there
      refine ⟨zflow, z', corrections, setsZ, fun n m => ?_⟩
      rw [memDefault corrections setsX setsZ, sameX]
      rfl
  obtain ⟨zflow, z', corrections, setsZ, sameZ⟩ := built
  refine ⟨zflow, x', z', corrections, setsX, setsZ, fun n m => ?_⟩
  rw [Dependency.Awaits, dependencyMember, sameX, sameZ, and_comm (b := m ≠ n)]
  rfl

theorem frameOfSets {nodes : NodeSet} (setsX : xflow.sets = .ok x) (setsZ : zflow.sets = .ok z) :
    Frame.ofFlows nodes xflow zflow = .ok (.ofSets nodes x z) := by
  simp only [Frame.ofFlows, setsX, setsZ]
  rfl

theorem compileFails (canonical : g.isCanonical = true)
    (corrections : g.zCorrections xflow zgiven = .ok zflow) (setsX : xflow.sets = .ok x)
    (setsZ : zflow.sets = .ok z) {schedule : Option Schedule} {fault : Fault}
    (refused : (g.dependencies x z).check = .error fault ∨
      (g.dependencies x z).check = .ok () ∧ (g.dependencies x z).order = .error fault) :
    g.compile xflow zgiven schedule correct = .error fault := by
  rw [compile, if_pos canonical, corrections]
  refine Result.bindError.mpr (.inr ⟨zflow, rfl, Result.bindError.mpr ?_⟩)
  rw [checkFlowSets setsX setsZ, frameOfSets setsX setsZ]
  refine refused.imp_right fun late => ⟨(), late.1, ?_⟩
  exact Result.bindError.mpr (.inr ⟨_, rfl, Result.bindError.mpr (.inl late.2)⟩)

theorem Sound.informsThere (sound : g.Sound) (targetsX : ∀ n, ∀ m ∈ setAt x n, m ∈ g.nodes)
    (targetsZ : ∀ z ∈ given, ∀ n, ∀ m ∈ setAt z n, m ∈ g.nodes) (informs : g.Informs x given n m) :
    m ∈ g.nodes := by
  rcases informs.2 with direct | ⟨_, other⟩
  · exact targetsX n m direct
  · cases given with
    | some z => exact targetsZ z rfl n m other
    | none =>
      have odd : Odd (g.hits (setAt x n) m) := other
      have some : g.hits (setAt x n) m ≠ 0 := fun zero => Nat.not_odd_zero (zero ▸ odd)
      obtain ⟨k, _, near⟩ := List.countP_pos_iff.mp (Nat.pos_of_ne_zero some)
      exact sound.neighborThere (of_decide_eq_true near)

/- Compilation without a schedule returns a pattern just when no node informs itself over any number of
steps. Otherwise it is refused: for two nodes that inform each other if there are any, which may be one
and the same, and else because there is no order. -/
theorem compilesIffAcyclic (reach : g.Reachable) (canonical : g.isCanonical = true)
    (targetsX : ∀ n, ∀ m ∈ setAt x n, m ∈ g.nodes)
    (targetsZ : ∀ z ∈ given, ∀ n, ∀ m ∈ setAt z n, m ∈ g.nodes) (correct : Bool) :
    ((∃ p, g.compile (.ofSets x) (given.map .ofSets) none correct = .ok p) ↔
      ∀ n, ¬ TransGen (g.Informs x given) n n) ∧
    ((∃ n m, g.Informs x given n m ∧ g.Informs x given m n) →
      ∃ n m, g.Informs x given n m ∧ g.Informs x given m n ∧
        g.compile (.ofSets x) (given.map .ofSets) none correct = .error (.cyclePair n m)) ∧
    ((∃ n, TransGen (g.Informs x given) n n) → (¬ ∃ n m, g.Informs x given n m ∧ g.Informs x given m n) →
      g.compile (.ofSets x) (given.map .ofSets) none correct = .error .cyclic) := by
  have sound := reachableSound reach
  obtain ⟨zflow, x', z', corrections, setsX, setsZ, awaits⟩ := informed sound targetsX given
  have same : (g.dependencies x' z').Awaits = g.Informs x given := funext₂ fun n m => propext (awaits n m)
  have closed : ∀ n m, (g.dependencies x' z').Awaits n m → m ∈ (g.dependencies x' z').keys := fun n m needed =>
    (dependencyKeys sound).mpr (sound.informsThere targetsX targetsZ ((awaits n m).mp needed))
  have checks := Dependency.checkIff closed
  rw [← same]
  refine ⟨⟨?_, ?_⟩, ?_, ?_⟩
  · rintro ⟨p, ok⟩ n
    obtain ⟨zflow₁, x₁, z₁, order, _, corrections₁, setsX₁, setsZ₁, parts, _⟩ := compileOk.mp ok
    cases corrections.symm.trans corrections₁
    cases setsX.symm.trans setsX₁
    cases setsZ.symm.trans setsZ₁
    exact Dependency.orderAcyclic parts.ordered
  · intro acyclic
    have checked := checks.mpr fun pair => by
      obtain ⟨n, m, forth, back⟩ := pair
      exact acyclic n (.tail (.single forth) back)
    obtain ⟨order, ordered⟩ := Dependency.orderOfAcyclic acyclic
    obtain ⟨measured, parts⟩ := orderMeasured sound canonical checked ordered
    exact ⟨_, compileOk.mpr ⟨zflow, x', z', order, measured, corrections, setsX, setsZ, parts, rfl⟩⟩
  · intro pair
    cases refused : (g.dependencies x' z').check with
    | ok _ => exact absurd pair (checks.mp refused)
    | error fault =>
      obtain ⟨n, m, rfl, forth, back⟩ := Dependency.checkRefused closed refused
      exact ⟨n, m, forth, back, compileFails canonical corrections setsX setsZ (.inl refused)⟩
  · rintro ⟨n, cycle⟩ apart
    exact compileFails canonical corrections setsX setsZ
      (.inr ⟨checks.mpr apart, Dependency.orderCyclic cycle⟩)

def twigRound : Table NodeSet := .ofList [(0, .singleton 1), (1, .singleton 3), (3, .singleton 0)]

def twigForth : Table NodeSet := .ofList [(0, .singleton 1)]

def twigSelf : Table NodeSet := .ofList [(1, .ofList [1, 3])]

set_option maxRecDepth 1024

theorem twigCausality : twig.Reachable ∧ twig.isCanonical = true ∧
    TransGen (twig.Informs twigRound (some ∅)) 0 0 ∧
    twig.compile (.ofSets twigRound) (some (.ofSets ∅)) none true = .error .cyclic ∧
    ∃ p, twig.compile (.ofSets twigForth) (some (.ofSets twigSelf)) none true = .ok p := by
  have reach : twig.Reachable := ⟨_, rfl⟩
  have canonical : twig.isCanonical = true := rfl
  have into (t : Table NodeSet) (all : ∀ e ∈ t.entries, ∀ m ∈ e.2, m ∈ twig.nodes) :
      ∀ n, ∀ m ∈ setAt t n, m ∈ twig.nodes := fun n m mem =>
    all _ (Dependency.entryOfMember (d := t) mem) m mem
  have cycle : TransGen (twig.Informs twigRound (some ∅)) 0 0 := by
    refine .tail (.tail (.single (b := 1) ?_) (c := 3) ?_) ?_ <;> exact ⟨by decide, .inl (by decide)⟩
  have apart : ¬ ∃ n m, twig.Informs twigRound (some ∅) n m ∧ twig.Informs twigRound (some ∅) m n := by
    have oneWay : ∀ n ∈ twig.innerNodes, ∀ m ∈ setAt twigRound n, n ∉ setAt twigRound m := by decide
    rintro ⟨n, m, ⟨inner, forth | ⟨_, none⟩⟩, ⟨_, back | ⟨_, none⟩⟩⟩
    · exact oneWay n inner m forth back
    all_goals exact NodeSet.notMemEmpty none
  have acyclic : ∀ n, ¬ TransGen (twig.Informs twigForth (some twigSelf)) n n := by
    have rises : ∀ n ∈ twig.innerNodes, (∀ m ∈ setAt twigForth n, n < m) ∧
        ∀ m ∈ setAt twigSelf n, m ≠ n → n < m := by decide
    have step {n m : Int} (informs : twig.Informs twigForth (some twigSelf) n m) : n < m := by
      obtain ⟨inner, direct | ⟨other, beside⟩⟩ := informs
      · exact (rises n inner).1 m direct
      · exact (rises n inner).2 m beside other
    have path {n m : Int} (steps : TransGen (twig.Informs twigForth (some twigSelf)) n m) : n < m := by
      induction steps with
      | single first => exact step first
      | tail _ last ih => exact ih.trans (step last)
    exact fun n round => (path round).false
  obtain ⟨_, _, late⟩ := compilesIffAcyclic reach canonical (into twigRound (by decide))
    (fun z same => Option.some.inj same ▸ into ∅ (by decide)) true
  obtain ⟨compiles, _, _⟩ := compilesIffAcyclic reach canonical (into twigForth (by decide))
    (fun z same => Option.some.inj same ▸ into twigSelf (by decide)) true
  exact ⟨reach, canonical, cycle, late ⟨0, cycle⟩ apart, compiles.mpr acyclic⟩

end Graph
end OneWay
