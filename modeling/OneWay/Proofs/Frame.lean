import OneWay.Flow.Dependency
import OneWay.Frame
import OneWay.Proofs.Table

/-! What recording outcomes does to a frame: it owes nothing at first, every correction of a measured
node flips once, and nothing else changes. -/
namespace OneWay.Frame
open OneWay.Graph (setAt)
variable {f f' : Frame} {n : Int} {ns : List Int}

theorem updateThen {u v : Update Unit} (first : f.update u = (.ok (), f')) :
    f.update (u >>= fun _ => v) = f'.update v := by
  show (ExceptT.run (u >>= fun _ => v)).run f = _
  rw [ExceptT.run_bind, StateT.run_bind]
  have ran : StateT.run (ExceptT.run u) f = (.ok (), f') := first
  rw [ran]
  rfl

theorem toggleOk {t : Table Bool} {b : Bool} (found : t.get? n = some b) :
    toggle t n = .ok (t.set n !b) := by
  rw [toggle, found]

theorem flipXOk {b : Bool} (found : f.x.get? n = some b) :
    f.update (flipX n) = (.ok (), { f with x := f.x.set n !b }) := by
  have run : f.update (flipX n) = StateT.run (ExceptT.run
      (ExceptT.mk (pure (toggle f.x n)) >>= fun t => (set { f with x := t } : Update PUnit))) f := rfl
  rw [run, toggleOk found]
  rfl

theorem flipZOk {b : Bool} (found : f.z.get? n = some b) :
    f.update (flipZ n) = (.ok (), { f with z := f.z.set n !b }) := by
  have run : f.update (flipZ n) = StateT.run (ExceptT.run
      (ExceptT.mk (pure (toggle f.z n)) >>= fun t => (set { f with z := t } : Update PUnit))) f := rfl
  rw [run, toggleOk found]
  rfl

theorem freshGet {nodes : NodeSet} {b : Bool} :
    (Table.ofList (nodes.toList.map fun n => (n, false))).get? n = some b ↔
      n ∈ nodes ∧ b = false := by
  have once : ((nodes.toList.map fun n => (n, false)).map Prod.fst).Nodup := by
    rw [List.map_map]
    exact (List.map_id _).symm ▸ nodes.nodup
  rw [← Table.memEntries, Table.entriesOfList once, List.mem_map]
  simp only [Prod.mk.injEq, NodeSet.memDef]
  constructor
  · intro given
    obtain ⟨m, mem, same, bit⟩ := given
    exact ⟨same ▸ mem, bit.symm⟩
  · intro given
    obtain ⟨mem, bit⟩ := given
    exact ⟨n, mem, rfl, bit.symm⟩

def Flipped (t u : Table Bool) (ns : List Int) : Prop :=
  ∀ m, u.get? m = (t.get? m).map fun b => xor b (decide (m ∈ ns))

theorem Flipped.keys {t u : Table Bool} (flipped : Flipped t u ns) : n ∈ u.keys ↔ n ∈ t.keys := by
  rw [Table.memKeys, Table.memKeys, flipped n]
  cases t.get? n <;> simp

theorem flipsOk (flip : Int → Update Unit) (part : Frame → Table Bool)
    (put : Frame → Table Bool → Frame) (partPut : ∀ f t, part (put f t) = t)
    (putPut : ∀ f t u, put (put f t) u = put f u) (putPart : ∀ f, put f (part f) = f)
    (one : ∀ f n b, (part f).get? n = some b →
      f.update (flip n) = (.ok (), put f ((part f).set n !b)))
    (once : ns.Nodup) (there : ∀ m ∈ ns, m ∈ (part f).keys) :
    ∃ t, f.update (ns.forM flip) = (.ok (), put f t) ∧ t.keys = (part f).keys ∧
      Flipped (part f) t ns := by
  induction ns generalizing f with
  | nil =>
    refine ⟨part f, ?_, rfl, fun m => ?_⟩
    · rw [putPart]
      rfl
    · simp
  | cons n rest ih =>
    obtain ⟨new, once⟩ := List.nodup_cons.mp once
    obtain ⟨b, found⟩ := Table.memKeys.mp (there n (by simp))
    have first := one f n b found
    have later : ∀ m ∈ rest, m ∈ (part (put f ((part f).set n !b))).keys := by
      intro m mem
      rw [partPut]
      exact Table.memKeysSet.mpr (.inr (there m (by simp [mem])))
    obtain ⟨t, ran, keys, flipped⟩ := ih once later
    rw [putPut] at ran
    rw [partPut] at keys flipped
    refine ⟨t, (updateThen first).trans ran, keys.trans (Table.keysSetOld ?_), fun m => ?_⟩
    · exact Table.memKeys.mpr ⟨b, found⟩
    rw [flipped m, Table.getSet]
    by_cases here : m = n
    · rw [if_pos here, here, found]
      simp [new]
    · rw [if_neg here]
      simp [here]

theorem flipMeasuredOk (thereX : ∀ m ∈ setAt f.xflow n, m ∈ f.x.keys)
    (thereZ : ∀ m ∈ setAt f.zflow n, m ∈ f.z.keys) :
    ∃ x z, f.update (flipMeasured n) = (.ok (), { f with x := x, z := z }) ∧
      x.keys = f.x.keys ∧ z.keys = f.z.keys ∧
      Flipped f.x x (setAt f.xflow n).toList ∧ Flipped f.z z (setAt f.zflow n).toList := by
  obtain ⟨x, ranX, keysX, flippedX⟩ := flipsOk flipX Frame.x
    (fun f t => { f with x := t }) (fun _ _ => rfl) (fun _ _ _ => rfl) (fun _ => rfl)
    (fun _ _ _ => flipXOk) (setAt f.xflow n).nodup thereX
  obtain ⟨z, ranZ, keysZ, flippedZ⟩ := flipsOk (f := { f with x := x }) flipZ Frame.z
    (fun f t => { f with z := t }) (fun _ _ => rfl) (fun _ _ _ => rfl) (fun _ => rfl)
    (fun _ _ _ => flipZOk) (setAt f.zflow n).nodup thereZ
  exact ⟨x, z, (updateThen ranX).trans ranZ, keysX, keysZ, flippedX, flippedZ⟩

end OneWay.Frame
