import Mathlib.Data.Sym.Sym2
import OneWay.Proofs.Runnable

/-! What a list of commands holds. Its commands are told apart by kind, edges without regard to which
end is named first. A condition may look at every command together with those before it, which is what
the checks for measured and for unprepared nodes do. The space along a list is what its preparations
add and its measurements take away. -/
namespace OneWay

def Once {α : Type} (xs : List α) (P : α → Prop) : Prop := xs.Nodup ∧ ∀ a, a ∈ xs ↔ P a

theorem Once.permIff {α : Type} {xs ys : List α} {P Q : α → Prop} (first : Once xs P)
    (second : Once ys Q) : xs.Perm ys ↔ ∀ a, P a ↔ Q a := by
  rw [List.perm_ext_iff_of_nodup first.1 second.1]
  exact forall_congr' fun a => by rw [first.2, second.2]

theorem Once.perm {α : Type} {xs ys : List α} {P : α → Prop} (first : Once xs P) (second : Once ys P) :
    xs.Perm ys :=
  (first.permIff second).mpr fun _ => Iff.rfl

theorem Once.congr {α : Type} {xs : List α} {P Q : α → Prop} (once : Once xs P)
    (same : ∀ a, P a ↔ Q a) : Once xs Q :=
  ⟨once.1, fun a => (once.2 a).trans (same a)⟩

theorem foldlMax (a : Int) (xs : List Int) :
    xs.foldl max a ∈ a :: xs ∧ ∀ x ∈ a :: xs, x ≤ xs.foldl max a :=
  List.max?_eq_some_iff.mp List.max?_cons'

namespace Command
variable {R : Type}

def prepared? : Command R → Option Int
  | .prepare n => some n
  | _ => none

def entangled? : Command R → Option (Sym2 Int)
  | .entangle a b => some s(a, b)
  | _ => none

def measured? : Command R → Option (Int × Basis R)
  | .measure n basis => some (n, basis)
  | _ => none

def correctedX? : Command R → Option Int
  | .correctX n => some n
  | _ => none

def correctedZ? : Command R → Option Int
  | .correctZ n => some n
  | _ => none

def gain : Command R → Int
  | .prepare _ => 1
  | .measure _ _ => -1
  | _ => 0

theorem memMeasured {commands : List (Command R)} {n : Int} {basis : Basis R} :
    (n, basis) ∈ commands.filterMap measured? ↔ Command.measure n basis ∈ commands := by
  rw [List.mem_filterMap]
  constructor
  · rintro ⟨c, mem, eq⟩
    cases c <;> cases eq
    exact mem
  · exact fun mem => ⟨_, mem, rfl⟩

end Command

namespace Pattern
open Command
variable {R : Type} {P : List (Command R) → Command R → Prop} {s : NodeSet}
  {c : Command R} {commands first rest : List (Command R)} {live : Int}

theorem Measures.contents {ns : List Int} (measures : Measures ns commands) :
    commands.filterMap prepared? = [] ∧ commands.filterMap entangled? = [] ∧
      (commands.filterMap measured?).map Prod.fst = ns ∧ commands.filterMap correctedX? = [] ∧
      commands.filterMap correctedZ? = [] := by
  induction measures with
  | nil => exact ⟨rfl, rfl, rfl, rfl, rfl⟩
  | cons head _ ih =>
    obtain ⟨basis, rfl⟩ := head
    simp [List.filterMap_cons, prepared?, entangled?, measured?, correctedX?, correctedZ?, ih]

theorem Measures.targets {ns : List Int} {Q : Int → Prop} (measures : Measures ns commands) :
    (∀ c ∈ commands, ∀ n ∈ c.targets, Q n) ↔ ∀ n ∈ ns, Q n := by
  induction measures with
  | nil => simp
  | cons head _ ih =>
    obtain ⟨basis, rfl⟩ := head
    rw [List.forall_mem_cons, List.forall_mem_cons, ih]
    simp [Command.targets]

def Along (P : List (Command R) → Command R → Prop) (commands : List (Command R)) : Prop :=
  ∀ before c after, commands = before ++ c :: after → P before c

theorem alongNil : Along P [] := by
  intro before c after split
  cases before <;> cases split

theorem alongCons : Along P (c :: rest) ↔ P [] c ∧ Along (fun before => P (c :: before)) rest := by
  constructor
  · intro all
    exact ⟨all [] c rest rfl, fun before d after split => all (c :: before) d after (by rw [split]; rfl)⟩
  · rintro ⟨head, tail⟩ before d after split
    cases before with
    | nil =>
      cases split
      exact head
    | cons e before =>
      cases split
      exact tail before d after rfl

theorem unpreparedCons (other : c.prepared? = none) : unpreparedUntouched s (c :: rest) = .ok () ↔
    (∀ n ∈ c.targets, n ∈ s) ∧ unpreparedUntouched s rest = .ok () := by
  cases c with
  | prepare n => cases other
  | unknown => simp [unpreparedUntouched, targets]
  | entangle a b =>
    by_cases ready : a ∈ s ∧ b ∈ s
    · simp [unpreparedUntouched, targets, ready]
    · have refused : a ∉ s ∨ b ∉ s := not_and_or.mp ready
      simp [unpreparedUntouched, targets, ready, refused]
  | measure n _ | correctX n | correctZ n =>
    by_cases ready : n ∈ s <;> simp [unpreparedUntouched, targets, ready]

theorem unpreparedPart (other : ∀ c ∈ first, c.prepared? = none) :
    unpreparedUntouched s (first ++ rest) = .ok () ↔
      (∀ c ∈ first, ∀ n ∈ c.targets, n ∈ s) ∧ unpreparedUntouched s rest = .ok () := by
  induction first with
  | nil => simp
  | cons c first ih =>
    rw [List.cons_append, unpreparedCons (other c (by simp)),
      ih fun d mem => other d (List.mem_cons_of_mem _ mem), List.forall_mem_cons, and_assoc]

theorem untouchedCons : measuredUntouched s (c :: rest) = .ok () ↔ c ≠ .unknown ∧
    (∀ n ∈ c.targets, n ∉ s) ∧
    measuredUntouched (noted s (c.measured?.toList.map Prod.fst)) rest = .ok () := by
  cases c with
  | unknown => simp [measuredUntouched]
  | entangle a b =>
    by_cases gone : a ∈ s ∨ b ∈ s
    · have refused : ¬ (a ∉ s ∧ b ∉ s) := fun free => gone.elim free.1 free.2
      simp [measuredUntouched, targets, gone, refused]
    · have free : a ∉ s ∧ b ∉ s := not_or.mp gone
      simp [measuredUntouched, targets, free, measured?, noted]
  | measure n _ | prepare n | correctX n | correctZ n =>
    by_cases gone : n ∈ s <;> simp [measuredUntouched, targets, gone, measured?, noted]

theorem unpreparedUntouchedOk : unpreparedUntouched s commands = .ok () ↔ Along (fun before c =>
    c.prepared? = none → ∀ n ∈ c.targets, n ∈ s ∨ .prepare n ∈ before) commands := by
  induction commands generalizing s with
  | nil => simp [unpreparedUntouched, alongNil]
  | cons c rest ih =>
    rw [alongCons]
    cases kind : c.prepared? with
    | none =>
      have other : ∀ n, c ≠ .prepare n := by
        rintro n rfl
        cases kind
      simp [unpreparedCons kind, ih, (other _).symm]
    | some n =>
      obtain rfl : c = .prepare n := by cases c <;> cases kind; rfl
      have step : unpreparedUntouched s (.prepare n :: rest) = unpreparedUntouched (s.insert n) rest := rfl
      simp [step, ih, or_assoc, or_left_comm]

theorem measuredUntouchedOk : measuredUntouched s commands = .ok () ↔ Along (fun before c =>
    c ≠ .unknown ∧ ∀ n ∈ c.targets, n ∉ s ∧ ∀ basis, .measure n basis ∉ before) commands := by
  induction commands generalizing s with
  | nil => simp [measuredUntouched, alongNil]
  | cons c rest ih =>
    have noting : ∀ n, n ∈ noted s (c.measured?.toList.map Prod.fst) ↔
        n ∈ s ∨ ∃ basis, c = .measure n basis := by
      intro n
      rw [memNoted]
      cases c <;> simp [measured?, eq_comm]
    rw [alongCons, untouchedCons, ih]
    simp [noting, not_or, and_assoc, forall_and, eq_comm]

def growth : List (Command R) → Int
  | [] => 0
  | c :: rest => c.gain + growth rest

@[simp] theorem growthNil : growth ([] : List (Command R)) = 0 := rfl

@[simp] theorem growthCons : growth (c :: rest) = c.gain + growth rest := rfl

theorem growthCount : growth commands =
    (commands.filterMap prepared?).length - (commands.filterMap measured?).length := by
  induction commands with
  | nil => rfl
  | cons c rest ih =>
    rw [growthCons, ih]
    cases c <;> simp [Command.gain, List.filterMap_cons, prepared?, measured?] <;> omega

theorem spaceCons : spaceFrom live (c :: rest) =
    (if c.gain = 0 then [] else [live]) ++ spaceFrom (live + c.gain) rest := by
  cases c with
  | prepare n => rfl
  | measure n basis => rfl
  | entangle _ _ | correctX _ | correctZ _ | unknown => simp [spaceFrom, Command.gain]

theorem spaceHead : (spaceFrom live commands).head? = some live := by
  induction commands generalizing live with
  | nil => rfl
  | cons c rest ih =>
    rw [spaceCons]
    split
    · rename_i still
      rw [List.nil_append, ih, still, Int.add_zero]
    · rfl

theorem spaceLast : (spaceFrom live commands).getLast? = some (live + growth commands) := by
  induction commands generalizing live with
  | nil => simp [spaceFrom]
  | cons c rest ih => simp [spaceCons, List.getLast?_append, ih, Int.add_assoc]

theorem memSpace {v : Int} : v ∈ spaceFrom live commands ↔
    ∃ before after, commands = before ++ after ∧ v = live + growth before := by
  induction commands generalizing live with
  | nil => simp [spaceFrom]
  | cons c rest ih =>
    rw [spaceCons, List.mem_append, ih]
    constructor
    · rintro (here | ⟨before, after, rfl, rfl⟩)
      · refine ⟨[], c :: rest, rfl, ?_⟩
        split at here <;> simp_all
      · exact ⟨c :: before, after, rfl, by rw [growthCons, Int.add_assoc]⟩
    · rintro ⟨before, after, split, rfl⟩
      cases before with
      | nil =>
        by_cases still : c.gain = 0
        · exact .inr ⟨[], rest, rfl, by simp [still]⟩
        · exact .inl (by simp [still])
      | cons d before =>
        cases split
        exact .inr ⟨before, after, rfl, by rw [growthCons, Int.add_assoc]⟩

theorem maxSpaceEq {p : Pattern R} {k : Int} (reached : k ∈ p.space) (bound : ∀ v ∈ p.space, v ≤ k) :
    p.maxSpace = k := by
  obtain ⟨mem, top⟩ := foldlMax p.inputs.size p.space
  have start : (p.inputs.size : Int) ∈ p.space := List.mem_of_mem_head? (by simp [space, spaceHead])
  have least : p.maxSpace ≤ k := by
    rcases List.mem_cons.mp mem with eq | later
    · exact (le_of_eq eq).trans (bound _ start)
    · exact bound _ later
  exact le_antisymm least (top k (by simp [reached]))

end Pattern
end OneWay
