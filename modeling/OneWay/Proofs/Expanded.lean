import OneWay.Proofs.InputChains

/-! The graph that expanding leaves. Whatever was there stays, and every input on which a Clifford waited
has a chain of three measured nodes in front of it, the first of which takes over its qubit. If no
Clifford is left on an output, a graph whose measured nodes had their bases is canonical afterwards. -/
namespace OneWay.Graph
variable {R : Type} [Scalar R] {g mid left : Graph R} {chain : Chain} {c : LocalClifford R}
  {n v : Int} {o : Int × Option Chain}

def Assigned (g : Graph R) : Prop := ∀ n ∈ g.innerNodes, n ∈ g.bases.keys

theorem Attached.assigned {ns : List Int} {made : List (Int × Chain)} (attached : Attached g ns made left)
    (assigned : g.Assigned) : left.Assigned := by
  intro n inner
  obtain ⟨there, measured⟩ := memInnerNodes.mp inner
  rw [attached.outputs] at measured
  rw [Table.memKeys]
  rcases (attached.nodes n).mp there with old | ⟨e, mem, new⟩
  · rw [attached.bases n old, ← Table.memKeys]
    exact assigned n (memInnerNodes.mpr ⟨old, measured⟩)
  · obtain ⟨c, _, front⟩ := attached.fronts e mem
    simp only [Chain.nodes, List.mem_cons, List.not_mem_nil, or_false] at new
    rcases new with rfl | rfl | rfl
    · exact ⟨_, front.alpha⟩
    · exact ⟨_, front.beta⟩
    · exact ⟨_, front.gamma⟩

structure InputsExpanded (g : Graph R) (out : List (Int × Chain)) (left : Graph R) : Prop where
  sound : left.Sound
  roles : left.Roles
  outputs : left.outputs = g.outputs
  size : left.inputs.size = g.inputs.size
  cliffords : ∀ n, n ∈ left.cliffords.keys ↔ n ∈ g.cliffords.keys ∧ n ∉ g.inputs.keys
  assigned : g.Assigned → left.Assigned
  fronted : ∀ v ∈ g.inputs.keys, ∀ c, g.cliffords.get? v = some c → ∃ chain, (v, chain) ∈ out ∧
    Fronts left chain v c ∧ left.inputs.get? chain.first = g.inputs.get? v ∧
      ∀ n ∈ [chain.first, chain.second, chain.third], n ∉ g.nodes

theorem inputsExpanded (sound : g.Sound) (roles : g.Roles) :
    ∃ out left, expandInputs.apply g = (.ok out, left) ∧ InputsExpanded g out left := by
  obtain ⟨out, left, ran, attached, inputs⟩ := inputsAttached sound roles
  obtain ⟨_, _, _, _, ran', _, size, _⟩ := expandInputsRun sound
  cases ran.symm.trans ran'
  obtain ⟨_, _, ran', registered, _, cliffords⟩ := expandInputsTotal sound roles
  cases ran.symm.trans ran'
  refine ⟨_, _, ran, Edit.soundSteps.expandInputs.run sound ran, registered, attached.outputs, size, cliffords,
    attached.assigned, fun v input c waiting => ?_⟩
  have listed := (attached.listed v).mpr ⟨input, Table.memKeys.mpr ⟨c, waiting⟩⟩
  obtain ⟨⟨_, chain⟩, made, rfl⟩ := List.mem_map.mp listed
  obtain ⟨c', waiting', front⟩ := attached.fronts _ made
  cases waiting.symm.trans waiting'
  obtain ⟨q, number⟩ := Table.memKeys.mp input
  refine ⟨chain, made, front, ?_, fun n mem there => attached.fresh _ made n mem there⟩
  rw [number]
  exact (inputs q chain.first).mpr ⟨_, number, .inr ⟨chain, made, rfl⟩⟩

/- Outputs are expanded without touching what is there, also where this breaks off. -/
theorem expandOutputsStays (sound : g.Sound) (roles : g.Roles) :
    Stays g (expandOutputs.apply g).2 ∧ (expandOutputs.apply g).2.inputs = g.inputs := by
  by_cases waiting : ∃ n, n ∈ g.outputs.keys ∧ n ∈ g.cliffords.keys
  · obtain ⟨n, output, waits⟩ := waiting
    obtain ⟨left, broke, so, stays, _⟩ := expandOutputsBreaks sound output waits
    rw [broke]
    exact ⟨stays, so.inputs⟩
  · obtain ⟨out, outputs, ran, _⟩ :=
      expandOutputsIdle sound roles fun n output waits => waiting ⟨n, output, waits⟩
    rw [ran]
    exact ⟨⟨fun _ mem => mem, fun _ _ mem => mem, fun _ _ => rfl⟩, rfl⟩

structure Expands (g : Graph R) (v : Int) (c : LocalClifford R) (chain : Chain) : Prop where
  reported : ∀ out, (expandCliffords.apply g).1 = .ok out → (v, chain) ∈ out.1
  fronts : Fronts (expandCliffords.apply g).2 chain v c
  input : (expandCliffords.apply g).2.inputs.get? chain.first = g.inputs.get? v
  new : ∀ n ∈ [chain.first, chain.second, chain.third], n ∉ g.nodes

theorem inputExpands (reach : g.Reachable) (input : v ∈ g.inputs.keys) (waiting : g.cliffords.get? v = some c) :
    ∃ chain, Expands g v c chain := by
  obtain ⟨chains, mid, first, expanded⟩ := inputsExpanded (reachableSound reach) (reachableRoles reach)
  obtain ⟨chain, listed, fronts, inputs, new⟩ := expanded.fronted v input c waiting
  obtain ⟨stays, kept⟩ := expandOutputsStays expanded.sound expanded.roles
  have passed : expandCliffords.apply g = (expandOutputs >>= fun more => pure (chains, more)).apply mid :=
    Edit.bindWent first
  cases second : expandOutputs.apply mid with
  | mk result left =>
    rw [second] at stays kept
    cases result with
    | ok more =>
      have whole : expandCliffords.apply g = (.ok (chains, more), left) := passed.trans (Edit.bindWent second)
      refine ⟨chain, ?_, ?_, ?_, new⟩ <;> rw [whole]
      · rintro out ⟨⟩
        exact listed
      · exact fronts.stays stays
      · exact kept ▸ inputs
    | error x =>
      have whole : expandCliffords.apply g = (.error x, left) := passed.trans (Edit.bindBroke second)
      refine ⟨chain, ?_, ?_, ?_, new⟩ <;> rw [whole]
      · simp
      · exact fronts.stays stays
      · exact kept ▸ inputs

theorem expandCliffordsCanonical (reach : g.Reachable) (balanced : g.inputs.size = g.outputs.size)
    (assigned : g.Assigned) (inner : ∀ n ∈ g.outputs.keys, n ∈ g.cliffords.keys → n ∈ g.inputs.keys) :
    ∃ out left, expandCliffords.apply g = (.ok out, left) ∧ left.isCanonical = true := by
  have roles := reachableRoles reach
  obtain ⟨chains, mid, first, expanded⟩ := inputsExpanded (reachableSound reach) roles
  have clear : ∀ n, n ∉ mid.cliffords.keys := by
    intro n waits
    obtain ⟨old, other⟩ := (expanded.cliffords n).mp waits
    rcases roles.cliffordsHeld n old with input | output
    · exact other input
    · exact other (inner n output old)
  obtain ⟨more, outputs, second, entries⟩ :=
    expandOutputsIdle expanded.sound expanded.roles fun n _ => clear n
  have order := outputsOrder (g := mid)
  rw [← entries] at order
  refine ⟨(chains, more), { mid with outputs := outputs },
    Edit.bindOk.mpr ⟨chains, mid, first, Edit.bindOk.mpr ⟨more, _, second, rfl⟩⟩, canonicalIff.mpr ⟨?_, ?_, ?_⟩⟩
  · show mid.inputs.size = outputs.entries.length
    rw [order.length_eq, expanded.outputs, expanded.size, balanced]
    rfl
  · show mid.cliffords.entries.isEmpty = true
    rw [List.isEmpty_iff, ← List.map_eq_nil_iff (f := Prod.fst)]
    exact List.eq_nil_iff_forall_not_mem.mpr clear
  · intro n measured
    obtain ⟨there, read⟩ := memInnerNodes.mp measured
    refine expanded.assigned assigned n (memInnerNodes.mpr ⟨there, fun output => read ?_⟩)
    exact (order.map Prod.fst).mem_iff.mpr output

theorem expansionCanonicalIff (reach : g.Reachable) (balanced : g.inputs.size = g.outputs.size)
    (assigned : ∀ n ∈ g.innerNodes, n ∈ g.bases.keys) :
    ((∃ out left, expandCliffords.apply g = (.ok out, left) ∧ left.isCanonical = true) ↔
      ∀ n ∈ g.outputs.keys, n ∈ g.cliffords.keys → n ∈ g.inputs.keys) ∧
    ∀ n ∈ g.outputs.keys, n ∈ g.cliffords.keys → n ∉ g.inputs.keys →
      ∃ left, expandCliffords.apply g = (.error .basisOnOutput, left) := by
  have refused (n : Int) (output : n ∈ g.outputs.keys) (waits : n ∈ g.cliffords.keys) (inner : n ∉ g.inputs.keys) :
      ∃ left, expandCliffords.apply g = (.error .basisOnOutput, left) := by
    obtain ⟨left, broke, _⟩ := expandCliffordsRefused reach output waits inner
    exact ⟨left, broke⟩
  refine ⟨⟨?_, expandCliffordsCanonical reach balanced assigned⟩, refused⟩
  rintro ⟨out, left, ran, _⟩ n output waits
  by_contra inner
  obtain ⟨left', broke⟩ := refused n output waits inner
  cases ran.symm.trans broke

noncomputable def candles : Graph ℝ :=
  after [.addNode, .addNode, .addNode, .addEdge 0 1, .registerInput 0, .registerInput 2, .registerOutput 1 0,
    .registerOutput 2 1, .assignBasis 0 (.planar .xy Scalar.zero), .applyClifford 0 .still, .applyClifford 2 .still]

theorem candlesExpanded : candles.Reachable ∧ candles.cliffords.keys = [0, 2] ∧
    candles.inputs.size = candles.outputs.size ∧ (∀ n ∈ candles.innerNodes, n ∈ candles.bases.keys) ∧
    (∀ n ∈ candles.outputs.keys, n ∈ candles.cliffords.keys → n ∈ candles.inputs.keys) ∧
    ∃ out left, expandCliffords.apply candles = (.ok out, left) ∧ left.isCanonical = true := by
  have reach : candles.Reachable := ⟨_, rfl⟩
  have assigned : ∀ n ∈ candles.innerNodes, n ∈ candles.bases.keys := by decide
  have inner : ∀ n ∈ candles.outputs.keys, n ∈ candles.cliffords.keys → n ∈ candles.inputs.keys := by decide
  exact ⟨reach, rfl, rfl, assigned, inner, (expansionCanonicalIff reach rfl assigned).1.mpr inner⟩

noncomputable def torch : Graph ℝ :=
  after [.addNode, .addNode, .addEdge 0 1, .registerInput 0, .registerOutput 1 0,
    .assignBasis 0 (.planar .xy Scalar.zero), .applyClifford 1 .still]

theorem torchRefused : torch.Reachable ∧ torch.inputs.size = torch.outputs.size ∧
    (∀ n ∈ torch.innerNodes, n ∈ torch.bases.keys) ∧
    ∃ left, expandCliffords.apply torch = (.error .basisOnOutput, left) := by
  have reach : torch.Reachable := ⟨_, rfl⟩
  obtain ⟨left, broke, _⟩ := expandCliffordsRefused (n := 1) reach (by decide) (by decide) (by decide)
  exact ⟨reach, rfl, by decide, left, broke⟩

end OneWay.Graph
