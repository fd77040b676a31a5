import Mathlib.Data.List.Forall2

/-! Steps that may fail. A step composed of others succeeds if and only if all of them do, which is
what lets a success be read backwards. -/
namespace OneWay.Result
variable {ε α β : Type}

theorem bindOk {x : Except ε α} {f : α → Except ε β} {b : β} :
    (x >>= f) = .ok b ↔ ∃ a, x = .ok a ∧ f a = .ok b := by
  cases x with
  | error e => simp [bind, Except.bind]
  | ok a => simp [bind, Except.bind]

theorem okBind {a : α} {f : α → Except ε β} : (Except.ok a >>= f) = f a := rfl

theorem bindError {x : Except ε α} {f : α → Except ε β} {e : ε} :
    (x >>= f) = .error e ↔ x = .error e ∨ ∃ a, x = .ok a ∧ f a = .error e := by
  cases x with
  | error other => simp [bind, Except.bind]
  | ok a => simp [bind, Except.bind]

theorem pureOk {a b : α} : (pure a : Except ε α) = .ok b ↔ a = b := by
  simp [pure, Except.pure]

theorem throwOk {e : ε} {b : α} : (throw e : Except ε α) = .ok b ↔ False := by
  simp [throw, throwThe, MonadExceptOf.throw]

theorem refuseIfOk {c : Prop} [Decidable c] {e : ε} {f : α → Except ε β} {x : Except ε β} {b : β} :
    (if c then throw e >>= f else x) = .ok b ↔ ¬ c ∧ x = .ok b := by
  by_cases h : c
  · simp [h, bindOk, throwOk]
  · simp [h]

theorem refuseUnlessOk {c : Prop} [Decidable c] {e : ε} {f : α → Except ε β} {x : Except ε β}
    {b : β} : (if c then x else throw e >>= f) = .ok b ↔ c ∧ x = .ok b := by
  by_cases h : c
  · simp [h]
  · simp [h, bindOk, throwOk]

theorem mapMOk {f : α → Except ε β} {xs : List α} {ys : List β} :
    xs.mapM f = .ok ys ↔ List.Forall₂ (fun x y => f x = .ok y) xs ys := by
  induction xs generalizing ys with
  | nil =>
    rw [List.mapM_nil, pureOk]
    constructor
    · rintro rfl
      exact .nil
    · intro h
      cases h
      rfl
  | cons x xs ih =>
    simp only [List.mapM_cons, bindOk, pureOk]
    constructor
    · rintro ⟨y, head, rest, tail, rfl⟩
      exact .cons head (ih.mp tail)
    · intro h
      cases h with
      | cons head tail => exact ⟨_, head, _, ih.mpr tail, rfl⟩

theorem mapMTotal {f : α → Except ε β} {xs : List α} (each : ∀ x ∈ xs, ∃ y, f x = .ok y) :
    ∃ ys, xs.mapM f = .ok ys := by
  induction xs with
  | nil => exact ⟨[], rfl⟩
  | cons x xs ih =>
    obtain ⟨y, head⟩ := each x (by simp)
    obtain ⟨ys, tail⟩ := ih fun z mem => each z (List.mem_cons_of_mem _ mem)
    exact ⟨y :: ys, mapMOk.mpr (.cons head (mapMOk.mp tail))⟩

theorem foldlMCongr {f h : β → α → Except ε β} {xs : List α} {b : β}
    (same : ∀ x ∈ xs, ∀ b, f b x = h b x) : xs.foldlM f b = xs.foldlM h b := by
  induction xs generalizing b with
  | nil => rfl
  | cons x xs ih =>
    have later : ∀ b, xs.foldlM f b = xs.foldlM h b := fun b =>
      ih fun y mem => same y (List.mem_cons_of_mem _ mem)
    rw [List.foldlM_cons, List.foldlM_cons, same x (by simp)]
    simp only [later]

theorem foldlMTotal {f : β → α → Except ε β} {xs : List α}
    (each : ∀ x ∈ xs, ∀ b, ∃ c, f b x = .ok c) (b : β) : ∃ c, xs.foldlM f b = .ok c := by
  induction xs generalizing b with
  | nil => exact ⟨b, rfl⟩
  | cons x xs ih =>
    obtain ⟨next, head⟩ := each x (by simp) b
    obtain ⟨c, tail⟩ := ih (fun y mem => each y (List.mem_cons_of_mem _ mem)) next
    exact ⟨c, by rw [List.foldlM_cons, bindOk]; exact ⟨next, head, tail⟩⟩

theorem memSource {P : α → β → Prop} {xs : List α} {ys : List β} (related : List.Forall₂ P xs ys)
    {y : β} (mem : y ∈ ys) : ∃ x ∈ xs, P x y := by
  induction related with
  | nil => cases mem
  | cons head tail ih =>
    rcases List.mem_cons.mp mem with rfl | mem
    · exact ⟨_, by simp, head⟩
    · obtain ⟨x, there, holds⟩ := ih mem
      exact ⟨x, List.mem_cons_of_mem _ there, holds⟩

theorem forMOk {f : α → Except ε PUnit} {xs : List α} :
    xs.forM f = .ok () ↔ ∀ x ∈ xs, f x = .ok () := by
  induction xs with
  | nil => simp [List.forM, pureOk]
  | cons x xs ih =>
    have step : (x :: xs).forM f = f x >>= fun _ => xs.forM f := rfl
    rw [step, bindOk, ih, List.forall_mem_cons]
    constructor
    · rintro ⟨_, head, tail⟩
      exact ⟨head, tail⟩
    · rintro ⟨head, tail⟩
      exact ⟨_, head, tail⟩

end OneWay.Result
