import Mathlib.Data.Nat.ModEq
import OneWay.Proofs.Causality
import OneWay.Proofs.Sequence

/-! The dependants of a node, and tables that go round. The dependencies of a flow and its frame name the
same dependants of a measured node unless the node corrects itself by X: then the node is listed among its
own dependants, and only the frame leaves it out. The check of a table looks two steps ahead, so that it
refuses what goes round in one step or two. What takes more steps passes. -/
namespace OneWay

namespace Graph
variable {R : Type} [Scalar R] {g : Graph R} {x z : Table NodeSet} {n : Int}

theorem dependencyGet (inner : n ∈ g.innerNodes) :
    (g.dependencies x z).get? n = some (setAt (g.dependencies x z) n) := by
  rw [dependencyInner inner]
  exact Table.memEntries.mp (dependencyEntry.mpr (.inl ⟨inner, rfl⟩))

theorem dependencyOwn : (g.dependencies x z).Awaits n n ↔ n ∈ g.innerNodes ∧ n ∈ setAt x n := by
  simp [Dependency.Awaits, dependencyMember]

theorem childrenOwn {nodes : NodeSet} (inner : n ∈ g.innerNodes) (own : n ∈ setAt x n) :
    setAt (g.dependencies x z) n = ((Frame.ofSets nodes x z).children n).insert n := by
  refine NodeSet.eqOfMem fun m => ?_
  rw [NodeSet.memInsert, memChildren, dependencyMember]
  by_cases same : m = n
  · simp [same, inner, own]
  · simp [same, inner]

theorem childrenAgree {nodes : NodeSet} (inner : n ∈ g.innerNodes) :
    (g.dependencies x z).get? n = some ((Frame.ofSets nodes x z).children n) ↔ n ∉ setAt x n := by
  rw [dependencyGet inner, Option.some.injEq]
  constructor
  · intro same own
    have listed : n ∈ setAt (g.dependencies x z) n := dependencyOwn.mpr ⟨inner, own⟩
    rw [same, memChildren] at listed
    exact listed.2 rfl
  · exact fun apart => (childrenInner inner apart).symm

/- The dependencies and the frame of two flows agree on a measured node just when it does not correct
itself by X. Otherwise the node is its own dependant, besides those in the frame. -/
theorem dependantsAgreeIff (g : Graph R) (x z : Table NodeSet) : ∃ d f,
    g.dependenciesOf (.ofSets x) (some (.ofSets z)) = .ok d ∧
    Frame.ofFlows g.nodes (.ofSets x) (.ofSets z) = .ok f ∧
    (∀ n ∈ g.innerNodes, (d.get? n = some (f.children n) ↔ n ∉ setAt x n) ∧
      (n ∈ setAt x n → d.get? n = some ((f.children n).insert n))) ∧
    (∀ n, d.Awaits n n ↔ n ∈ g.innerNodes ∧ n ∈ setAt x n) ∧
    ((∀ n ∈ g.innerNodes, d.get? n = some (f.children n)) ↔ ∀ n, ¬ d.Awaits n n) := by
  obtain ⟨x', setsX⟩ := Flow.setsOfSets x
  obtain ⟨z', setsZ⟩ := Flow.setsOfSets z
  have sameX : ∀ n, setAt x n = setAt x' n := fun n => by rw [setAt, setAt, Flow.getOfSets setsX]
  simp only [sameX]
  refine ⟨g.dependencies x' z', .ofSets g.nodes x' z', dependenciesOfSets rfl setsX setsZ,
    frameOfSets setsX setsZ, fun n inner => ⟨childrenAgree inner, fun own => ?_⟩,
    fun n => dependencyOwn, ?_⟩
  · rw [dependencyGet inner, childrenOwn inner own]
  · simp only [dependencyOwn, not_and]
    exact forall₂_congr fun n inner => childrenAgree inner

def twigOwnX : Table NodeSet := .ofList [(0, .singleton 1), (1, .ofList [1, 3])]

def twigOwnZ : Table NodeSet := .ofList [(0, .ofList [0, 3]), (1, .singleton 2)]

theorem twigOwnAgree : twig.Reachable ∧ ∃ d f,
    twig.dependenciesOf (.ofSets twigOwnX) (some (.ofSets twigOwnZ)) = .ok d ∧
    Frame.ofFlows twig.nodes (.ofSets twigOwnX) (.ofSets twigOwnZ) = .ok f ∧
    d.get? 0 = some (f.children 0) ∧ d.get? 1 ≠ some (f.children 1) ∧
    d.get? 1 = some ((f.children 1).insert 1) ∧ d.Awaits 1 1 := by
  obtain ⟨d, f, built, framed, each, loops, _⟩ := dependantsAgreeIff twig twigOwnX twigOwnZ
  obtain ⟨agree, _⟩ := each 0 (by decide)
  obtain ⟨differ, besides⟩ := each 1 (by decide)
  refine ⟨⟨_, rfl⟩, d, f, built, framed, agree.mpr (by decide), fun same => ?_, besides (by decide),
    (loops 1).mpr (by decide)⟩
  exact differ.mp same (by decide)

theorem spiderOwnDependant : spider.Reachable ∧ 1 ∈ spider.innerNodes ∧ ∃ d f,
    spider.dependenciesOf (.ofSets (.ofList [(1, .singleton 1)])) (some (.ofSets ∅)) = .ok d ∧
    Frame.ofFlows spider.nodes (.ofSets (.ofList [(1, .singleton 1)])) (.ofSets ∅) = .ok f ∧
    d.get? 1 = some (.singleton 1) ∧ f.children 1 = ∅ ∧ d.Awaits 1 1 :=
  ⟨⟨_, rfl⟩, by decide, _, _, rfl, rfl, rfl, rfl, dependencyOwn.mpr (by decide)⟩

end Graph

namespace Dependency
variable {lists : Table (List Int)} {j k a : Nat} {n m l : Int}

inductive Walk (lists : Table (List Int)) : Nat → Int → Int → Prop where
  | stay (n : Int) : Walk lists 0 n n
  | step {k : Nat} {n m l : Int} (first : Leads lists n m) (rest : Walk lists k m l) :
      Walk lists (k + 1) n l

def Round (lists : Table (List Int)) (k : Nat) : Prop := 0 < k ∧ ∃ n, Walk lists k n n

theorem walkZero : Walk lists 0 n m ↔ m = n := by
  constructor
  · intro walk
    cases walk
    rfl
  · rintro rfl
    exact .stay m

theorem walkSucc : Walk lists (k + 1) n l ↔ ∃ m, Leads lists n m ∧ Walk lists k m l := by
  constructor
  · intro walk
    cases walk with
    | step first rest => exact ⟨_, first, rest⟩
  · rintro ⟨m, first, rest⟩
    exact .step first rest

theorem roundShort : (∃ k ≤ 2, Round lists k) ↔ ∃ n m, Leads lists n m ∧ Leads lists m n := by
  constructor
  · rintro ⟨k, short, some, n, walk⟩
    obtain rfl | rfl : k = 1 ∨ k = 2 := by omega
    · obtain ⟨m, loop, stays⟩ := walkSucc.mp walk
      obtain rfl := walkZero.mp stays
      exact ⟨n, n, loop, loop⟩
    · obtain ⟨m, forth, rest⟩ := walkSucc.mp walk
      obtain ⟨l, back, stays⟩ := walkSucc.mp rest
      obtain rfl := walkZero.mp stays
      exact ⟨n, m, forth, back⟩
  · rintro ⟨n, m, forth, back⟩
    exact ⟨2, le_refl 2, Nat.two_pos, n, .step forth (.step back (.stay n))⟩

theorem refusedShort (closed : ∀ n m, Leads lists n m → m ∈ lists.keys) :
    (∃ fault, checkLists lists = .error fault) ↔ ∃ k ≤ 2, Round lists k := by
  rw [roundShort, ← not_iff_not, ← checkListsIff closed]
  cases checkLists lists <;> simp

def ring (k : Nat) : Table (List Int) :=
  .ofList ((List.range k).map fun (i : Nat) => ((i : Int), [(((i + 1) % k : Nat) : Int)]))

theorem ringEntries : (ring k).entries =
    (List.range k).map fun (i : Nat) => ((i : Int), [(((i + 1) % k : Nat) : Int)]) := by
  refine Table.entriesOfList ?_
  rw [List.map_map]
  exact List.nodup_range.map fun _ _ same => Int.ofNat.inj same

theorem leadsRing : Leads (ring k) n m ↔ ∃ i : Nat, i < k ∧ n = i ∧ m = ((i + 1) % k : Nat) := by
  simp only [leadsEntry, ringEntries, List.mem_map, List.mem_range, Prod.mk.injEq]
  constructor
  · rintro ⟨_, ⟨i, inside, rfl, rfl⟩, mem⟩
    exact ⟨i, inside, rfl, List.mem_singleton.mp mem⟩
  · rintro ⟨i, inside, rfl, rfl⟩
    exact ⟨_, ⟨i, inside, rfl, rfl⟩, List.mem_singleton_self _⟩

theorem ringClosed : ∀ n m, Leads (ring k) n m → m ∈ (ring k).keys := by
  intro n m leads
  obtain ⟨i, inside, rfl, rfl⟩ := leadsRing.mp leads
  have there : (i + 1) % k < k := Nat.mod_lt _ (by omega)
  rw [Table.keys, ringEntries, List.map_map]
  exact List.mem_map.mpr ⟨(i + 1) % k, List.mem_range.mpr there, rfl⟩

theorem walkRing (inside : a < k) : Walk (ring k) j a m ↔ m = ((a + j) % k : Nat) := by
  induction j generalizing a with
  | zero => rw [walkZero, Nat.add_zero, Nat.mod_eq_of_lt inside]
  | succ j ih =>
    have next : Walk (ring k) j ((a + 1) % k : Nat) m ↔ m = ((a + (j + 1)) % k : Nat) := by
      rw [ih (Nat.mod_lt _ (by omega)), Nat.mod_add_mod, Nat.add_assoc, Nat.add_comm 1 j]
    rw [walkSucc, ← next]
    constructor
    · rintro ⟨l, leads, rest⟩
      obtain ⟨i, _, same, rfl⟩ := leadsRing.mp leads
      obtain rfl : a = i := Int.ofNat.inj same
      exact rest
    · exact fun rest => ⟨_, leadsRing.mpr ⟨a, inside, rfl, rfl⟩, rest⟩

theorem roundRing (some : 0 < k) : Round (ring k) j ↔ 0 < j ∧ k ∣ j := by
  refine and_congr_right fun steps => ?_
  constructor
  · rintro ⟨n, walk⟩
    obtain ⟨m, leads, _⟩ := walkSucc.mp (Nat.sub_add_cancel steps ▸ walk)
    obtain ⟨a, inside, rfl, _⟩ := leadsRing.mp leads
    have back : a = (a + j) % k := Int.ofNat.inj ((walkRing inside).mp walk)
    have same : a + j ≡ a [MOD k] := by
      rw [Nat.ModEq, ← back, Nat.mod_eq_of_lt inside]
    exact Nat.add_modEq_left_iff.mp same
  · intro whole
    refine ⟨(0 : Nat), (walkRing some).mpr ?_⟩
    rw [Nat.zero_add, Nat.mod_eq_zero_of_dvd whole]

/- The check refuses a table just when it goes round in at most two steps, naming two nodes that lead to
each other. So it is right about a table unless all its rounds are longer, and they can be of any length:
rings are refused only up to two nodes. -/
theorem checkSeesTwoSteps (closed : ∀ n m, Leads lists n m → m ∈ lists.keys) :
    ((∃ fault, checkLists lists = .error fault) ↔ ∃ k ≤ 2, Round lists k) ∧
    (∀ fault, checkLists lists = .error fault →
      ∃ n m, fault = .cyclePair n m ∧ Leads lists n m ∧ Leads lists m n) ∧
    (((∃ fault, checkLists lists = .error fault) ↔ ∃ k, Round lists k) ↔
      ((∃ k, Round lists k) → ∃ k ≤ 2, Round lists k)) ∧
    ∀ k, 0 < k → (∀ j, Round (ring k) j ↔ 0 < j ∧ k ∣ j) ∧
      ((∃ fault, checkLists (ring k) = .error fault) ↔ k ≤ 2) := by
  have short := refusedShort closed
  refine ⟨short, fun fault => checkListsRefused closed, ?_, fun k some => ⟨fun j => roundRing some, ?_⟩⟩
  · rw [short]
    refine ⟨fun right => right.mpr, fun found => ⟨?_, found⟩⟩
    rintro ⟨k, _, round⟩
    exact ⟨k, round⟩
  · rw [refusedShort ringClosed]
    constructor
    · rintro ⟨j, few, round⟩
      obtain ⟨steps, whole⟩ := (roundRing some).mp round
      exact (Nat.le_of_dvd steps whole).trans few
    · exact fun few => ⟨k, few, (roundRing some).mpr ⟨some, k.dvd_refl⟩⟩

def lasso : Table (List Int) := .ofList [(0, [1]), (1, [3, 2]), (2, [1]), (3, [])]

theorem lassoRefused : (∀ n m, Leads lasso n m → m ∈ lasso.keys) ∧ Round lasso 2 ∧
    (∃ fault, checkLists lasso = .error fault) ∧
    ((∃ fault, checkLists lasso = .error fault) ↔ ∃ k, Round lasso k) := by
  have closed : ∀ n m, Leads lasso n m → m ∈ lasso.keys := by
    have each : ∀ e ∈ lasso.entries, ∀ m ∈ e.2, m ∈ lasso.keys := by decide
    intro n m leads
    obtain ⟨children, entry, mem⟩ := leadsEntry.mp leads
    exact each _ entry m mem
  have forth : Leads lasso 1 2 := leadsEntry.mpr ⟨[3, 2], by decide, by decide⟩
  have back : Leads lasso 2 1 := leadsEntry.mpr ⟨[1], by decide, by decide⟩
  have round : Round lasso 2 := ⟨Nat.two_pos, 1, .step forth (.step back (.stay 1))⟩
  obtain ⟨refused, _, right, _⟩ := checkSeesTwoSteps closed
  exact ⟨closed, round, refused.mpr ⟨2, le_refl 2, round⟩, right.mpr fun _ => ⟨2, le_refl 2, round⟩⟩

theorem triangleAccepted : (∀ n m, Leads (ring 3) n m → m ∈ (ring 3).keys) ∧
    (ring 3).entries = [(0, [1]), (1, [2]), (2, [0])] ∧ checkLists (ring 3) = .ok () ∧ Round (ring 3) 3 :=
  ⟨ringClosed, rfl, rfl, (roundRing (by decide)).mpr (by decide)⟩

end Dependency
end OneWay
