import Mathlib.Analysis.SpecialFunctions.Complex.Arg
import OneWay.Circuit.Basic
import OneWay.Proofs.Block

/-! Taking gates apart keeps what a circuit does, up to one global phase. What a list of elementary gates
does to its target is found by multiplying blocks, and compared with the matrix of the gate. -/
namespace OneWay

namespace Gate
open Operator
open Tensor (withBits placeOn)
variable {φ : State} {z : Labelling} {c t : Int} {gates others : List (Gate ℝ)}
  {m n : Labelling → Entries}

noncomputable def run (gates : List (Gate ℝ)) : Operator := inTurn (gates.map operator)

theorem runAppend : run (gates ++ others) = run others * run gates := by
  rw [run, List.map_append, inTurnAppend]
  rfl

theorem runCons {gate : Gate ℝ} : run (gate :: gates) = run gates * gate.operator := inTurnCons

theorem runOne {gate : Gate ℝ} : run [gate] = gate.operator := by
  rw [runCons, run, List.map_nil, inTurnNil, one_mul]

structure Acts (gates : List (Gate ℝ)) (t : Int) (m : Labelling → Entries) : Prop where
  block : run gates = block t m
  blind : ∀ z b, m (Function.update z t b) = m z

theorem Acts.append (first : Acts gates t m) (second : Acts others t n) :
    Acts (gates ++ others) t fun z => (n z).after (m z) where
  block := by rw [runAppend, first.block, second.block, blockAfter first.blind]
  blind z b := by rw [first.blind, second.blind]

theorem Acts.congr (acts : Acts gates t m) (same : ∀ z, m z = n z) : Acts gates t n := by
  rwa [← funext same]

theorem Acts.alike (acts : Acts gates t m) {u : Operator} (is : u = Operator.block t n) (angle : ℝ)
    (same : ∀ z a b, m z a b = Complex.exp (angle * Complex.I) * n z a b) : Alike (run gates) u := by
  refine ⟨angle, LinearMap.ext fun φ => funext fun z => ?_⟩
  rw [acts.block, is, LinearMap.smul_apply, Pi.smul_apply, blockApply, blockApply, same, same, smul_eq_mul]
  ring

theorem jActs {angle : ℝ} : Acts [j t angle] t fun _ => .j angle where
  block := by
    refine LinearMap.ext fun φ => funext fun z => ?_
    rw [runOne, jApply, blockApply]
    simp only [Entries.j, Scalar.twoReal, if_true, Bool.false_eq_true, if_false]
    ring
  blind _ _ := rfl

theorem czActs (apart : c ≠ t) :
    Acts [cz [c, t]] t fun z => .mono (fun b => sign (z c && b)) false where
  block := by
    refine LinearMap.ext fun φ => funext fun z => ?_
    rw [runOne, czApply, blockDiagonal]
  blind z b := by rw [Function.update_of_ne apart]

theorem rzActs {angle : ℝ} : Acts (rzGates t angle) t fun _ => .mono (Entries.turn angle) false := by
  rw [rzGates, Scalar.zeroReal]
  exact (jActs.append jActs).congr fun z => Entries.jZeroAfter

theorem cnotActs (apart : c ≠ t) : Acts (cnotGates c t) t fun z => .mono (fun _ => 1) (z c) := by
  rw [cnotGates, Scalar.zeroReal]
  exact (jActs.append ((czActs apart).append jActs)).congr fun z => by
    rw [Entries.afterAssoc, Entries.signBetween]

theorem hActs : Acts (hGates t) t fun _ => .j 0 := by
  rw [hGates, Scalar.zeroReal]
  exact jActs

theorem u3Acts {theta phi lambda : ℝ} : Acts (u3Gates t theta phi lambda) t fun _ a b =>
    Complex.exp ((theta / 2 : ℝ) * Complex.I) * Entries.u3 theta phi lambda a b := by
  rw [u3Gates, Scalar.zeroReal, Scalar.halfReal]
  exact ((jActs.append jActs).append (jActs.append jActs)).congr fun z => by
    rw [Entries.jZeroAfter]
    exact Entries.u3Of

theorem crzActs (apart : c ≠ t) {angle : ℝ} : Acts (crzGates c t angle) t fun z =>
    .mono (fun b => if z c then Entries.rz angle b else 1) false := by
  rw [crzGates, Scalar.halfReal, Scalar.halfReal]
  refine (((rzActs.append (cnotActs apart)).append rzActs).append (cnotActs apart)).congr fun z => ?_
  simp only [Entries.monoAfter]
  have back : Entries.turn (-angle / 2) true * Entries.turn (angle / 2) true = 1 := by
    rw [← Entries.turnAdd, neg_div, neg_add_cancel, Entries.turnZero]
  cases z c with
  | false =>
    funext a b
    cases a <;> cases b <;> simp [Entries.mono, back]
  | true =>
    funext a b
    cases a <;> cases b <;> simp [Entries.mono, Entries.rz, Entries.turn, neg_div]

theorem Acts.aside {s : Int} {d : Labelling → Bool → ℂ} (acts : Acts gates s fun z => .mono (d z) false)
    (apart : s ≠ t) (blind : ∀ z b, d (Function.update z t b) = d z) :
    Acts gates t fun z => .mono (fun _ => d z (z s)) false where
  block := by
    refine LinearMap.ext fun φ => funext fun z => ?_
    rw [acts.block, blockDiagonal, blockDiagonal]
  blind z b := by rw [blind, Function.update_of_ne apart]

theorem quarter : (Scalar.pi / Scalar.ofNat 4 : ℝ) = Real.pi / 4 := by
  show Real.pi / ((4 : ℕ) : ℝ) = Real.pi / 4
  norm_num

theorem quarterBack : (-Scalar.pi / Scalar.ofNat 4 : ℝ) = -(Real.pi / 4) := by
  show -Real.pi / ((4 : ℕ) : ℝ) = -(Real.pi / 4)
  norm_num
  ring

theorem tActs : Acts (tGates t) t fun _ => .mono (Entries.turn (Real.pi / 4)) false := by
  rw [tGates, quarter]
  exact rzActs

theorem tdgActs : Acts (tdgGates t) t fun _ => .mono (Entries.turn (-(Real.pi / 4))) false := by
  rw [tdgGates, quarterBack]
  exact rzActs

theorem parityTurns (x y w : Bool) :
    Entries.turn (Real.pi / 4) x * Entries.turn (-(Real.pi / 4)) (xor y x) *
      (Entries.turn (Real.pi / 4) w * (Entries.turn (Real.pi / 4) y *
        (Entries.turn (-(Real.pi / 4)) (xor w x) * (Entries.turn (Real.pi / 4) (xor (xor w x) y) *
          Entries.turn (-(Real.pi / 4)) (xor w y))))) = sign (x && y && w) := by
  have back : Entries.turn (-(Real.pi / 4)) true * Entries.turn (Real.pi / 4) true = 1 := by
    rw [← Entries.turnAdd, neg_add_cancel, Entries.turnZero]
  have all : Entries.turn (Real.pi / 4) true ^ 4 = -1 := by
    rw [Entries.turnTrue, ← Complex.exp_nat_mul]
    have whole : ((4 : ℕ) : ℂ) * ((Real.pi / 4 : ℝ) * Complex.I) = Real.pi * Complex.I := by
      push_cast
      ring
    rw [whole, Complex.exp_pi_mul_I]
  cases x <;> cases y <;> cases w <;> simp <;> grind

variable {a b : Int}

theorem toffoliTail (apart : a ≠ b) :
    Acts (cnotGates a b ++ (tGates a ++ (tdgGates b ++ cnotGates a b))) b fun z =>
      .mono (fun y => Entries.turn (Real.pi / 4) (z a) * Entries.turn (-(Real.pi / 4)) (xor y (z a)))
        false := by
  have beside : Acts (tGates a) b fun z => .mono (fun _ => Entries.turn (Real.pi / 4) (z a)) false :=
    tActs.aside apart fun _ _ => rfl
  refine ((cnotActs apart).append (beside.append (tdgActs.append (cnotActs apart)))).congr fun z => ?_
  simp only [Entries.monoAfter]
  funext x y
  cases z a <;> cases x <;> cases y <;> simp [Entries.mono, mul_comm]

theorem toffoliActs (ab : a ≠ b) (at' : a ≠ t) (bt : b ≠ t) :
    Acts (toffoliGates a b t) t fun z => .mono (fun _ => 1) (z a && z b) := by
  have tail := (toffoliTail ab).aside bt fun z x => by rw [Function.update_of_ne at']
  have beside : Acts (tGates b) t fun z => .mono (fun _ => Entries.turn (Real.pi / 4) (z b)) false :=
    tActs.aside bt fun _ _ => rfl
  have core := (cnotActs bt).append (tdgActs.append ((cnotActs at').append (tActs.append
    ((cnotActs bt).append (tdgActs.append ((cnotActs at').append (beside.append tActs)))))))
  have whole := hActs.append (core.append (hActs.append tail))
  simp only [toffoliGates, List.append_assoc] at whole ⊢
  refine whole.congr fun z => ?_
  simp only [Entries.monoAfter, Entries.afterAssoc]
  rw [Entries.factorPast, ← Entries.afterAssoc (l := Entries.mono _ _), Entries.monoAfter,
    ← Entries.signBetween]
  refine congrArg (fun m : Entries => (Entries.j 0).after (m.after (Entries.j 0))) ?_
  refine congrArg₂ Entries.mono (funext fun w => ?_) ?_
  · rw [← parityTurns (z a) (z b) w]
    cases z a <;> cases z b <;> simp [mul_assoc]
  · cases z a <;> cases z b <;> rfl

theorem cu3Turns (phi lambda : ℝ) (k b : Bool) :
    Entries.turn (-(phi + lambda) / 2) (xor b k) * (Entries.turn (lambda / 2 - phi / 2) b *
      Entries.turn (lambda / 2 + phi / 2) k) =
        if k then Entries.turn lambda b else Entries.turn (-phi) b := by
  have join (x y : ℝ) : Entries.turn x true * Entries.turn y true = Entries.turn (x + y) true :=
    Entries.turnAdd.symm
  cases k with
  | false =>
    have sum : -(phi + lambda) / 2 + (lambda / 2 - phi / 2) = -phi := by ring
    cases b with
    | false => simp
    | true => rw [Bool.xor_false, Entries.turnFalse, mul_one, join, sum, if_neg Bool.false_ne_true]
  | true =>
    have none : -(phi + lambda) / 2 + (lambda / 2 + phi / 2) = 0 := by ring
    cases b with
    | false => rw [Bool.false_xor, Entries.turnFalse, one_mul, join, none, Entries.turnZero, if_pos rfl,
        Entries.turnFalse]
    | true => simp [join]

theorem cu3Acts (apart : c ≠ t) {theta phi lambda : ℝ} :
    Acts (rzGates c (lambda / 2 + phi / 2) ++ rzGates t (lambda / 2 - phi / 2) ++ cnotGates c t ++
      u3Gates t (-(theta / 2)) 0 (-(phi + lambda) / 2) ++ cnotGates c t ++ u3Gates t (theta / 2) phi 0) t
      fun z => if z c then Entries.u3 theta phi lambda else .mono (fun _ => 1) false := by
  have beside : Acts (rzGates c (lambda / 2 + phi / 2)) t fun z =>
      .mono (fun _ => Entries.turn (lambda / 2 + phi / 2) (z c)) false :=
    rzActs.aside apart fun _ _ => rfl
  refine (((((beside.append rzActs).append (cnotActs apart)).append u3Acts).append
    (cnotActs apart)).append u3Acts).congr fun z => ?_
  generalize z c = k
  simp only [Entries.monoAfter]
  simp only [Entries.flipAfter, Entries.afterMono]
  have phase : Complex.exp ((theta / 2 / 2 : ℝ) * Complex.I) *
      Complex.exp ((-(theta / 2) / 2 : ℝ) * Complex.I) = 1 := by
    rw [← Complex.exp_add, neg_div, Complex.ofReal_neg, neg_mul, add_neg_cancel, Complex.exp_zero]
  funext a b
  have turns := congrFun (congrFun (Entries.ryTwice (theta / 2) k) a) b
  have labels := cu3Turns phi lambda k b
  simp only [Entries.after, Bool.xor_false, Bool.xor_assoc, Bool.xor_self] at turns ⊢
  rw [Entries.u3, Entries.u3, Entries.u3, Entries.u3]
  simp only [Entries.turnZero, mul_one, one_mul]
  have product : (if k then Entries.u3 theta phi lambda else .mono (fun _ => 1) false : Entries) a b =
      Entries.turn phi a *
        (if k then Entries.ry (2 * (theta / 2)) else .mono (fun _ => 1) false : Entries) a b *
        (if k then Entries.turn lambda b else Entries.turn (-phi) b) := by
    cases k with
    | false =>
      have back : Entries.turn phi true * Entries.turn (-phi) true = 1 := by
        rw [← Entries.turnAdd, add_neg_cancel, Entries.turnZero]
      cases a <;> cases b <;> simp [Entries.mono, back]
    | true =>
      rw [mul_div_cancel₀ theta two_ne_zero]
      rfl
  rw [product, ← turns, ← labels]
  grind

theorem cnotApply (apart : c ≠ t) :
    run (cnotGates c t) φ z = φ (Function.update z t (xor (z t) (z c))) := by
  rw [(cnotActs apart).block, blockApply]
  cases z t <;> cases z c <;> simp [Entries.mono]

theorem swapApply (apart : a ≠ b) :
    (swap [a, b] : Gate ℝ).operator φ z = φ (Function.update (Function.update z a (z b)) b (z a)) := by
  have pair (w : Labelling) : placeOn [a, b] w = 2 * (w a).toNat + (w b).toNat := by
    simp [placeOn, Tensor.placeOf, List.range_succ]
  have moved : withBits [a, b] (2 * (z b).toNat + (z a).toNat) z =
      Function.update (Function.update z a (z b)) b (z a) := by
    have place := pair (Function.update (Function.update z a (z b)) b (z a))
    rw [Function.update_self, Function.update_of_ne apart, Function.update_self] at place
    rw [← place]
    refine withBitsOther fun q absent => ?_
    simp only [List.mem_cons, List.not_mem_nil, or_false, not_or] at absent
    rw [Function.update_of_ne absent.2, Function.update_of_ne absent.1]
  show act (swap [a, b] : Gate ℝ).matrix [a, b] φ z = _
  rw [actApply, ← moved, Finset.sum_eq_single (2 * (z b).toNat + (z a).toNat), pair]
  · cases z a <;> cases z b <;> simp [matrix, Matrix.entry, Matrix.ofRows]
  · intro place mem other
    have inside : place < 4 := Finset.mem_range.mp mem
    rw [pair]
    revert other
    cases z a <;> cases z b <;> interval_cases place <;> simp [matrix, Matrix.entry, Matrix.ofRows]
  · intro absent
    have := Bool.toNat_lt (z a)
    have := Bool.toNat_lt (z b)
    exact absurd (Finset.mem_range.mpr (show _ < 4 by omega)) absent

theorem swapRun (apart : a ≠ b) :
    run (cnotGates a b ++ cnotGates b a ++ cnotGates a b) = (swap [a, b] : Gate ℝ).operator := by
  refine LinearMap.ext fun φ => funext fun z => ?_
  rw [runAppend, runAppend, Module.End.mul_apply, Module.End.mul_apply, cnotApply apart,
    cnotApply apart.symm, cnotApply apart, swapApply apart]
  refine congrArg φ (funext fun q => ?_)
  by_cases atB : q = b
  · subst atB
    simp [Function.update_of_ne apart, Function.update_of_ne apart.symm]
  · by_cases atA : q = a
    · subst atA
      simp [Function.update_of_ne apart, Function.update_of_ne apart.symm, Bool.xor_left_comm (z q)]
    · simp [Function.update_of_ne atA, Function.update_of_ne atB]

def arity {R : Type} : Gate R → Option Nat
  | cz _ | cnot _ | swap _ | crz _ _ | crx _ _ | cu3 _ _ _ _ => some 2
  | toffoli _ | ccz _ => some 3
  | _ => none

def Placed {R : Type} (gate : Gate R) : Prop :=
  gate.qubits.Nodup ∧ ∀ k, gate.arity = some k → gate.qubits.length = k

theorem placedTwo {R : Type} {gate : Gate R} (placed : gate.Placed) (two : gate.arity = some 2) :
    ∃ a b, gate.qubits = [a, b] ∧ a ≠ b := by
  obtain ⟨a, b, eq⟩ := List.length_eq_two.mp (placed.2 2 two)
  refine ⟨a, b, eq, fun same => ?_⟩
  have once := placed.1
  rw [eq, same] at once
  simp at once

theorem placedThree {R : Type} {gate : Gate R} (placed : gate.Placed) (three : gate.arity = some 3) :
    ∃ a b c, gate.qubits = [a, b, c] ∧ a ≠ b ∧ a ≠ c ∧ b ≠ c := by
  obtain ⟨a, b, c, eq⟩ := List.length_eq_three.mp (placed.2 3 three)
  refine ⟨a, b, c, eq, ?_⟩
  have once := placed.1
  rw [eq] at once
  simpa [and_assoc] using once

theorem xEntries {x y : Bool} : ((xMatrix : Matrix ℝ).entry x.toNat y.toNat).toComplex =
    Entries.mono (fun _ => 1) true x y := by
  cases x <;> cases y <;> simp [xMatrix, Matrix.entry, Matrix.ofRows, Entries.mono]

theorem zEntries {x y : Bool} : ((zMatrix : Matrix ℝ).entry x.toNat y.toNat).toComplex =
    Entries.mono sign false x y := by
  cases x <;> cases y <;> simp [zMatrix, Matrix.entry, Matrix.ofRows, Entries.mono]

theorem hEntries {q : Int} {x y : Bool} : ((h q : Gate ℝ).matrix.entry x.toNat y.toNat).toComplex =
    Entries.j 0 x y := by
  have one : (Scalar.one : ℝ) = 1 := Nat.cast_one
  cases x <;> cases y <;> simp [matrix, Matrix.entry, Matrix.ofRows, Entries.j, one]

theorem phaseEntries {angle : ℝ} {p : Amplitude ℝ} (phase : p.toComplex = Complex.exp (angle * Complex.I))
    {x y : Bool} : ((phaseMatrix p).entry x.toNat y.toNat).toComplex =
      Entries.mono (Entries.turn angle) false x y := by
  cases x <;> cases y <;> simp [phaseMatrix, Matrix.entry, Matrix.ofRows, Entries.mono, Entries.turn, phase]

theorem rxEntries {angle : ℝ} {x y : Bool} :
    ((rxMatrix angle).entry x.toNat y.toNat).toComplex = Entries.rx angle x y := by
  cases x <;> cases y <;> simp [rxMatrix, Matrix.entry, Matrix.ofRows, Entries.rx]

theorem rzEntries {angle : ℝ} {x y : Bool} :
    ((rzMatrix angle).entry x.toNat y.toNat).toComplex = Entries.mono (Entries.rz angle) false x y := by
  cases x <;> cases y <;> simp [rzMatrix, Matrix.entry, Matrix.ofRows, Entries.mono, Entries.rz, neg_div]

theorem u3Entries {theta phi lambda : ℝ} {x y : Bool} :
    ((u3Matrix theta phi lambda).entry x.toNat y.toNat).toComplex = Entries.u3 theta phi lambda x y := by
  cases x <;> cases y <;>
    simp [u3Matrix, Matrix.entry, Matrix.ofRows, Entries.u3, Entries.ry, Entries.turn, add_mul, Complex.exp_add]
  all_goals ring

theorem ryEntries {q : Int} {angle : ℝ} {x y : Bool} :
    ((ry q angle).matrix.entry x.toNat y.toNat).toComplex = Entries.ry angle x y := by
  cases x <;> cases y <;> simp [matrix, Matrix.entry, Matrix.ofRows, Entries.ry]

section
variable {q : Int} {theta phi lambda angle : ℝ}

theorem operatorBlock {gate : Gate ℝ} {m : Entries} (operands : gate.operands = [q])
    (entries : ∀ x y, (gate.matrix.entry x.toNat y.toNat).toComplex = m x y) :
    gate.operator = block q fun _ => m := by
  have same : (fun x y : Bool => (gate.matrix.entry x.toNat y.toNat).toComplex) = m :=
    funext fun x => funext fun y => entries x y
  rw [operator, operands, actBlock, same]

theorem identityAlike : Alike (run (rzGates q Scalar.zero)) (identity q).operator := by
  have entries (x y : Bool) : (((identity q : Gate ℝ).matrix).entry x.toNat y.toNat).toComplex =
      Entries.mono (fun _ => 1) false x y := by
    cases x <;> cases y <;> simp [matrix, Matrix.identity, Matrix.entryOfFn, Entries.mono]
  refine rzActs.alike (operatorBlock rfl entries) 0 fun z x y => ?_
  rw [Scalar.zeroReal]
  cases x <;> cases y <;> simp [Entries.mono]

theorem xAlike : Alike (run [j q Scalar.zero, j q Scalar.pi]) (x q).operator := by
  rw [Scalar.zeroReal]
  refine (jActs.append jActs).alike (operatorBlock rfl fun _ _ => xEntries) 0 fun z x y => ?_
  show Entries.after (.j Real.pi) (.j 0) x y = _
  rw [Entries.jTwice]
  cases x <;> cases y <;> simp [Entries.mono, Entries.rx]

theorem piTurn {b : Bool} : Entries.turn Real.pi b = sign b := by
  cases b <;> simp [Entries.turn]

theorem piTurnBack {b : Bool} : Entries.turn (-Real.pi) b = sign b := by
  cases b <;> simp [Entries.turn, Complex.exp_neg]

theorem u3Form : [j q (Scalar.half Scalar.pi), j q theta, j q (-Scalar.pi / Scalar.two), j q Scalar.zero] =
    u3Gates q theta (-Real.pi) Real.pi := by
  have first : (Scalar.half Scalar.pi : ℝ) = Real.pi - Scalar.half Scalar.pi := by
    rw [Scalar.halfReal]
    show Real.pi / 2 = Real.pi - Real.pi / 2
    ring
  have second : (-Scalar.pi / Scalar.two : ℝ) = -Real.pi + Scalar.half Scalar.pi := by
    rw [Scalar.halfReal, Scalar.twoReal]
    show -Real.pi / 2 = -Real.pi + Real.pi / 2
    ring
  rw [u3Gates, ← first, ← second]

theorem yAlike : Alike (run [j q (Scalar.half Scalar.pi), j q Scalar.pi, j q (-Scalar.pi / Scalar.two),
    j q Scalar.zero]) (y q).operator := by
  rw [u3Form]
  have entries (x y : Bool) : (((Gate.y q : Gate ℝ).matrix).entry x.toNat y.toNat).toComplex =
      if x = y then 0 else -Complex.I * sign x := by
    cases x <;> cases y <;> simp [matrix, Matrix.entry, Matrix.ofRows]
  refine u3Acts.alike (operatorBlock rfl entries) Real.pi fun z x y => ?_
  show Complex.exp ((Real.pi / 2 : ℝ) * Complex.I) * Entries.u3 Real.pi (-Real.pi) Real.pi x y = _
  rw [Entries.u3, piTurn, piTurnBack]
  cases x <;> cases y <;> simp [Entries.ry]

theorem zAlike : Alike (run (rzGates q Scalar.pi)) (Gate.z q).operator := by
  refine rzActs.alike (operatorBlock rfl fun _ _ => zEntries) 0 fun z x y => ?_
  have half : Entries.turn Real.pi = sign := funext fun _ => piTurn
  show Entries.mono (Entries.turn Real.pi) false x y = _
  rw [half]
  simp

theorem hAlike : Alike (run (hGates q)) (h q).operator :=
  hActs.alike (operatorBlock rfl fun _ _ => hEntries) 0 fun z x y => by simp

theorem phaseAlike {gate : Gate ℝ} {p : Amplitude ℝ} (operands : gate.operands = [q])
    (matrix : gate.matrix = phaseMatrix p) (phase : p.toComplex = Complex.exp (angle * Complex.I)) :
    Alike (run (rzGates q angle)) gate.operator :=
  rzActs.alike (operatorBlock operands fun _ _ => matrix ▸ phaseEntries phase) 0 fun z x y => by simp

theorem unitTurn : (Amplitude.unit : Amplitude ℝ).toComplex =
    Complex.exp ((Scalar.half Scalar.pi : ℝ) * Complex.I) := by
  rw [Amplitude.toComplexUnit, Scalar.halfReal]
  push_cast
  exact Complex.exp_pi_div_two_mul_I.symm

theorem rxAlike : Alike (run [j q Scalar.zero, j q angle]) (rx q angle).operator := by
  rw [Scalar.zeroReal]
  refine (jActs.append jActs).alike (operatorBlock rfl fun _ _ => rxEntries) (angle / 2) fun z x y => ?_
  rw [Entries.jTwice]
  simp only [Entries.turnZero, mul_one]

theorem ryAlike : Alike (run [j q (Scalar.half Scalar.pi), j q (-angle), j q (-Scalar.pi / Scalar.two),
    j q Scalar.zero]) (ry q angle).operator := by
  rw [u3Form]
  refine u3Acts.alike (operatorBlock rfl fun _ _ => ryEntries) (-angle / 2) fun z x y => ?_
  rw [Entries.u3, piTurn, piTurnBack]
  cases x <;> cases y <;> simp [Entries.ry, neg_div]

theorem rzAlike : Alike (run (rzGates q angle)) (rz q angle).operator := by
  refine rzActs.alike (operatorBlock rfl fun _ _ => rzEntries) (angle / 2) fun z x y => ?_
  have back : Complex.exp ((angle / 2 : ℝ) * Complex.I) * Complex.exp (-(angle / 2 : ℝ) * Complex.I) = 1 := by
    rw [← Complex.exp_add, neg_mul, add_neg_cancel, Complex.exp_zero]
  simp only [Entries.mono, Entries.rzTurn, mul_ite, mul_zero]
  rw [← mul_assoc, back, one_mul]

theorem u3Alike : Alike (run (u3Gates q theta phi lambda)) (u3 q theta phi lambda).operator :=
  u3Acts.alike (operatorBlock rfl fun _ _ => u3Entries) (theta / 2) fun _ _ _ => rfl

end

section
variable {theta phi lambda angle : ℝ}

theorem controlledOperator {gate : Gate ℝ} {u : Matrix ℝ} {m : Entries} (cs : List Int)
    (matrix : gate.matrix = controlled (2 ^ (cs.length + 1)) u) (operands : gate.operands = cs ++ [t])
    (rows : u.rows = 2) (fresh : t ∉ cs)
    (entries : ∀ x y, (u.entry x.toNat y.toNat).toComplex = m x y) :
    gate.operator = block t fun z => if cs.all (z ·) then m else .mono (fun _ => 1) false := by
  have same : (fun x y : Bool => (u.entry x.toNat y.toNat).toComplex) = m :=
    funext fun x => funext fun y => entries x y
  rw [operator, operands, matrix, controlledBlock cs rows fresh, same]

theorem Acts.same (acts : Acts gates t m) {u : Operator} (is : u = Operator.block t n)
    (equal : ∀ z, m z = n z) : Alike (run gates) u :=
  acts.alike is 0 fun z x y => by rw [equal]; simp

theorem cnotAlike (apart : a ≠ b) : Alike (run (cnotGates a b)) (cnot [a, b]).operator := by
  refine (cnotActs apart).same (controlledOperator [a] rfl rfl rfl (by simpa using apart.symm)
    fun _ _ => xEntries) fun z => ?_
  cases label : z a <;> simp [label]

theorem crzAlike (apart : a ≠ b) : Alike (run (crzGates a b angle)) (crz [a, b] angle).operator := by
  refine (crzActs apart).same (controlledOperator [a] rfl rfl rfl (by simpa using apart.symm)
    fun _ _ => rzEntries) fun z => ?_
  cases label : z a <;> simp [label]

theorem crxAlike (apart : a ≠ b) : Alike (run (hGates b ++ crzGates a b angle ++ hGates b))
    (crx [a, b] angle).operator := by
  refine ((hActs.append (crzActs apart)).append hActs).same (controlledOperator [a] rfl rfl rfl
    (by simpa using apart.symm) fun _ _ => rxEntries) fun z => ?_
  cases label : z a with
  | false => simp [label, Entries.monoOneAfter, Entries.jZeroTwice]
  | true => simpa [label] using Entries.rzBetween

theorem cu3Alike (apart : a ≠ b) : Alike (run (rzGates a (Scalar.half lambda + Scalar.half phi) ++
    rzGates b (Scalar.half lambda - Scalar.half phi) ++ cnotGates a b ++
    u3Gates b (Scalar.half (-theta)) Scalar.zero (Scalar.half (-(phi + lambda))) ++ cnotGates a b ++
    u3Gates b (Scalar.half theta) phi Scalar.zero)) (cu3 [a, b] theta phi lambda).operator := by
  simp only [Scalar.halfReal, Scalar.zeroReal, neg_div _ theta]
  refine (cu3Acts apart).same (controlledOperator [a] rfl rfl rfl (by simpa using apart.symm)
    fun _ _ => u3Entries) fun z => ?_
  cases label : z a <;> simp [label]

theorem toffoliAlike (ab : a ≠ b) (at' : a ≠ t) (bt : b ≠ t) :
    Alike (run (toffoliGates a b t)) (toffoli [a, b, t]).operator := by
  refine (toffoliActs ab at' bt).same (controlledOperator [a, b] rfl rfl rfl
    (by simp [at'.symm, bt.symm]) fun _ _ => xEntries) fun z => ?_
  cases labelA : z a <;> cases labelB : z b <;> simp [labelA, labelB]

theorem cczAlike (ab : a ≠ b) (at' : a ≠ t) (bt : b ≠ t) :
    Alike (run (hGates t ++ toffoliGates a b t ++ hGates t)) (ccz [a, b, t]).operator := by
  refine ((hActs.append (toffoliActs ab at' bt)).append hActs).same (controlledOperator [a, b] rfl rfl rfl
    (by simp [at'.symm, bt.symm]) fun _ _ => zEntries) fun z => ?_
  rw [Entries.flipBetween]
  cases labelA : z a <;> cases labelB : z b <;> simp [labelA, labelB]

end

theorem expandAlike {gate : Gate ℝ} (placed : gate.Placed) :
    ∃ gates, gate.expand = .ok gates ∧ Alike (run gates) gate.operator := by
  have once : Alike (run [gate]) gate.operator := by
    rw [runOne]
    exact alikeSelf
  have two (arity : gate.arity = some 2) := placedTwo placed arity
  have three (arity : gate.arity = some 3) := placedThree placed arity
  cases gate with
  | j q angle => exact ⟨_, rfl, once⟩
  | cz qs => exact ⟨_, rfl, once⟩
  | phaseGadget qs angle => exact ⟨_, rfl, once⟩
  | identity q => exact ⟨_, rfl, identityAlike⟩
  | x q => exact ⟨_, rfl, xAlike⟩
  | y q => exact ⟨_, rfl, yAlike⟩
  | z q => exact ⟨_, rfl, zAlike⟩
  | h q => exact ⟨_, rfl, hAlike⟩
  | s q => exact ⟨_, rfl, phaseAlike rfl rfl unitTurn⟩
  | t q => exact ⟨_, rfl, phaseAlike rfl rfl Amplitude.toComplexCis⟩
  | tdg q => exact ⟨_, rfl, phaseAlike rfl rfl Amplitude.toComplexCis⟩
  | rx q angle => exact ⟨_, rfl, rxAlike⟩
  | ry q angle => exact ⟨_, rfl, ryAlike⟩
  | rz q angle => exact ⟨_, rfl, rzAlike⟩
  | u3 q theta phi lambda => exact ⟨_, rfl, u3Alike⟩
  | cnot qs =>
    obtain ⟨a, b, rfl, apart⟩ := two rfl
    exact ⟨_, rfl, cnotAlike apart⟩
  | swap qs =>
    obtain ⟨a, b, rfl, apart⟩ := two rfl
    exact ⟨_, rfl, swapRun apart ▸ alikeSelf⟩
  | crz qs angle =>
    obtain ⟨a, b, rfl, apart⟩ := two rfl
    exact ⟨_, rfl, crzAlike apart⟩
  | crx qs angle =>
    obtain ⟨a, b, rfl, apart⟩ := two rfl
    exact ⟨_, rfl, crxAlike apart⟩
  | cu3 qs theta phi lambda =>
    obtain ⟨a, b, rfl, apart⟩ := two rfl
    exact ⟨_, rfl, cu3Alike apart⟩
  | toffoli qs =>
    obtain ⟨a, b, c, rfl, ab, ac, bc⟩ := three rfl
    exact ⟨_, rfl, toffoliAlike ab ac bc⟩
  | ccz qs =>
    obtain ⟨a, b, c, rfl, ab, ac, bc⟩ := three rfl
    exact ⟨_, rfl, cczAlike ab ac bc⟩

end Gate

namespace Circuit
open Operator Gate

theorem entryAlike {e : Entry ℝ} (placed : e.gate.Placed) :
    ∃ gates, e.instructions = .ok gates ∧ Alike (run gates) e.gate.operator := by
  cases e with
  | expanded gate => exact expandAlike placed
  | verbatim gate => exact ⟨[gate], rfl, by rw [runOne]; exact alikeSelf⟩

theorem entriesAlike {es : List (Entry ℝ)} (placed : ∀ e ∈ es, e.gate.Placed) :
    ∃ parts, es.mapM Entry.instructions = .ok parts ∧
      Alike (run parts.flatten) (run (es.map Entry.gate)) := by
  induction es with
  | nil => exact ⟨[], rfl, alikeSelf⟩
  | cons e es ih =>
    obtain ⟨here, later⟩ := List.forall_mem_cons.mp placed
    obtain ⟨gates, first, same⟩ := entryAlike here
    obtain ⟨parts, rest, alike⟩ := ih later
    refine ⟨gates :: parts, Result.mapMOk.mpr (.cons first (Result.mapMOk.mp rest)), ?_⟩
    rw [List.flatten_cons, List.map_cons, runAppend, runCons]
    exact alike.mul same

theorem expansionAlike {c : Circuit ℝ} (placed : ∀ gate ∈ c.gates, gate.Placed) :
    ∃ gates, c.instructions = .ok gates ∧ ∃ angle : ℝ,
      inTurn (gates.map Gate.operator) =
        Complex.exp (angle * Complex.I) • inTurn (c.gates.map Gate.operator) := by
  have each : ∀ e ∈ c.entries, e.gate.Placed := fun e mem => placed _ (List.mem_map_of_mem mem)
  obtain ⟨parts, read, alike⟩ := entriesAlike each
  exact ⟨parts.flatten, Result.bindOk.mpr ⟨parts, read, rfl⟩, alike⟩

noncomputable def medley : Circuit ℝ :=
  ⟨4, [.expanded (.ry 3 1), .expanded (.u3 0 1 Real.pi (-1)), .expanded (.toffoli [2, 0, 1]),
    .expanded (.cu3 [1, 3] (Scalar.half 1) Real.pi 1), .verbatim (.y 2), .expanded (.swap [0, 2]),
    .expanded (.phaseGadget [3, 0, 1] Real.pi), .expanded (.crx [2, 1] (-1)), .expanded (.ccz [3, 1, 0])]⟩

theorem medleyAlike : (∀ gate ∈ medley.gates, gate.Placed) ∧ ∃ gates, medley.instructions = .ok gates ∧
    gates.length = 119 ∧ ∃ angle : ℝ, inTurn (gates.map Gate.operator) =
      Complex.exp (angle * Complex.I) • inTurn (medley.gates.map Gate.operator) := by
  have placed : ∀ gate ∈ medley.gates, gate.Placed := by
    simp [medley, Circuit.gates, Entry.gate, Gate.Placed, Gate.qubits, Gate.qubit?, Gate.arity]
  obtain ⟨gates, read, alike⟩ := expansionAlike placed
  refine ⟨placed, gates, read, ?_, alike⟩
  cases read
  rfl

end Circuit
end OneWay
