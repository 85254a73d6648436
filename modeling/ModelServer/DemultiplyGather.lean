import ModelServer.Demultiplexing

namespace ModelServer.GatherNodeInputHandler

open NodeSessionMetadata

variable {ElementType : Type} [DecidableEq ElementType] {bitwidth : ElementType → Nat}

/-- A handler is given the outputs of sessions of its dependencies, in an order of arrival. -/
def gather (visit : Iteration (Nat × Tensor bitwidth)) (gatherFrom : Finset String)
    (mapping : Nat → List (String × String)) (outputs : Nat → NodeSessionMetadata → List (String × Tensor bitwidth))
    (handler : GatherNodeInputHandler bitwidth) (arrivals : List (Nat × NodeSessionMetadata)) :
    Except StatusCode (GatherNodeInputHandler bitwidth) :=
  arrivals.foldlM
    (fun (handler : GatherNodeInputHandler bitwidth) (dependency, metadata) =>
      setInputs visit gatherFrom handler (mapping dependency) (outputs dependency metadata) metadata)
    handler

/-- Dependencies whose sessions have outputs of one type of whole bytes and of one shape for each input. -/
structure Supplied (c : Nat) (mapping : Nat → List (String × String))
    (outputs : Nat → NodeSessionMetadata → List (String × Tensor bitwidth)) (metas : List NodeSessionMetadata) :
    Prop where
  connected : Connected (fun j => (mapping j).map Prod.snd) c
  outputs : ∀ j < c, ∀ pair ∈ mapping j, ∃ elementType shape, 8 ∣ bitwidth elementType ∧
    ∀ metadata ∈ metas, ∃ tensor, (outputs j metadata).lookup pair.1 = some tensor ∧
      tensor.elementType = elementType ∧ tensor.shape = shape

theorem foldlM_map_eq {ε α β γ : Type} {f : β → α → Except ε β} {g : β → γ → Except ε β} (k : α → γ) {xs : List α}
    (h : ∀ x ∈ xs, ∀ b, f b x = g b (k x)) (b : β) : xs.foldlM f b = (xs.map k).foldlM g b := by
  induction xs generalizing b with
  | nil => rfl
  | cons x xs ih =>
    rw [List.map_cons, List.foldlM_cons, List.foldlM_cons, h x List.mem_cons_self]
    congr 1
    funext next
    exact ih (fun x hm => h x (List.mem_cons_of_mem _ hm)) next

theorem setInputs_arrive {visit : Iteration (Nat × Tensor bitwidth)} {gatherFrom : Finset String}
    {mapping : Nat → List (String × String)} {inputs : List (String × Tensor bitwidth)}
    {metadata : NodeSessionMetadata} {shard : String → Nat → Tensor bitwidth} {j i : Nat}
    (hid : metadata.getShardId gatherFrom = .ok i)
    (hinputs : ∀ pair ∈ mapping j, inputs.lookup pair.1 = some (shard pair.2 i))
    (handler : GatherNodeInputHandler bitwidth) :
    setInputs visit gatherFrom handler (mapping j) inputs metadata =
      arrive visit (fun j => (mapping j).map Prod.snd) shard handler (j, i) := by
  unfold setInputs arrive
  rw [hid]
  refine congrArg (· >>= notifyFinishedDependency visit) (foldlM_map_eq Prod.snd ?_ handler)
  intro pair hpair handler
  simp only [hinputs pair hpair]

theorem gather_arrive {visit : Iteration (Nat × Tensor bitwidth)} {gatherFrom : Finset String} {c : Nat}
    {mapping : Nat → List (String × String)} {outputs : Nat → NodeSessionMetadata → List (String × Tensor bitwidth)}
    {shard : String → Nat → Tensor bitwidth} {number : NodeSessionMetadata → Nat} {metas : List NodeSessionMetadata}
    (hnumber : ∀ metadata ∈ metas, metadata.getShardId gatherFrom = .ok (number metadata))
    (hshard : ∀ j < c, ∀ pair ∈ mapping j, ∀ metadata ∈ metas,
      (outputs j metadata).lookup pair.1 = some (shard pair.2 (number metadata)))
    {arrivals : List (Nat × NodeSessionMetadata)} (harrivals : ∀ arrival ∈ arrivals, arrival.1 < c ∧ arrival.2 ∈ metas)
    (handler : GatherNodeInputHandler bitwidth) :
    gather visit gatherFrom mapping outputs handler arrivals =
      (arrivals.map fun arrival => (arrival.1, number arrival.2)).foldlM
        (arrive visit (fun j => (mapping j).map Prod.snd) shard) handler := by
  induction arrivals generalizing handler with
  | nil => rfl
  | cons arrival arrivals ih =>
    obtain ⟨hc, hm⟩ := harrivals arrival List.mem_cons_self
    unfold gather at ih ⊢
    rw [List.map_cons, List.foldlM_cons, List.foldlM_cons]
    simp only [setInputs_arrive (hnumber _ hm) fun pair hpair => hshard _ hc pair hpair _ hm]
    congr 1
    funext next
    exact ih (fun arrival hin => harrivals arrival (List.mem_cons_of_mem _ hin)) next

theorem map_product {α β : Type} (xs : List α) (ys : List β) {γ : Type} (f : β → γ) :
    (xs ×ˢ ys).map (fun p => (p.1, f p.2)) = xs ×ˢ ys.map f := by
  induction xs with
  | nil => rfl
  | cons x xs ih => simp [ih]

/-- A handler is ready with the last shard and not before, and holds the shards of each input at their places. -/
structure Gathers (visit : Iteration (Nat × Tensor bitwidth)) (c : Nat) (collapsingDetails : CollapseDetails)
    (gatherFrom : Finset String) (mapping : Nat → List (String × String))
    (outputs : Nat → NodeSessionMetadata → List (String × Tensor bitwidth)) (metas : List NodeSessionMetadata)
    (arrivals : List (Nat × NodeSessionMetadata)) : Prop where
  waits : ∀ before after, arrivals = before ++ after → after ≠ [] → ∃ handler,
    gather visit gatherFrom mapping outputs (create bitwidth c collapsingDetails) before = .ok handler ∧
      handler.isReady = false
  ready : ∃ handler,
    gather visit gatherFrom mapping outputs (create bitwidth c collapsingDetails) arrivals = .ok handler ∧
      handler.isReady = true ∧
      ∀ j < c, ∀ pair ∈ mapping j, ∃ tensor shard, handler.inputTensors.lookup pair.2 = some tensor ∧
        (∀ metadata ∈ metas, ∀ i, metadata.getShardId gatherFrom = .ok i →
          (outputs j metadata).lookup pair.1 = some (shard i)) ∧
        Consolidated collapsingDetails.collapsedSessionSizes shard tensor

omit [DecidableEq ElementType] in
/-- The shards of the inputs, by the ids of their sessions. -/
theorem Supplied.shards {c : Nat} {mapping : Nat → List (String × String)}
    {outputs : Nat → NodeSessionMetadata → List (String × Tensor bitwidth)} {metas : List NodeSessionMetadata}
    (h : Supplied c mapping outputs metas) (precision : ElementType) {number : NodeSessionMetadata → Nat} {m : Nat}
    (hnumber : metas.map number = List.range m) :
    ∃ shard : String → Nat → Tensor bitwidth,
      (∀ j < c, ∀ pair ∈ mapping j, ∀ metadata ∈ metas,
        (outputs j metadata).lookup pair.1 = some (shard pair.2 (number metadata))) ∧
      Uniform (fun j => (mapping j).map Prod.snd) shard c m := by
  have hinjective : ∀ metadata ∈ metas, ∀ metadata' ∈ metas, number metadata = number metadata' →
      metadata = metadata' := by
    apply List.inj_on_of_nodup_map
    rw [hnumber]
    exact List.nodup_range
  have hexists : ∀ name i, ∃ tensor : Tensor bitwidth, ∀ j < c, ∀ pair ∈ mapping j, pair.2 = name →
      ∀ metadata ∈ metas, number metadata = i → (outputs j metadata).lookup pair.1 = some tensor := by
    intro name i
    by_cases hin : ∃ j < c, ∃ pair ∈ mapping j, pair.2 = name ∧ ∃ metadata ∈ metas, number metadata = i
    · obtain ⟨j, hj, pair, hpair, rfl, metadata, hm, rfl⟩ := hin
      obtain ⟨elementType, shape, _, houtputs⟩ := h.outputs j hj pair hpair
      obtain ⟨tensor, htensor, _⟩ := houtputs metadata hm
      refine ⟨tensor, ?_⟩
      intro j' hj' pair' hpair' hname metadata' hm' hnum
      have hjj : j' = j := h.connected.disjoint j' hj' j hj pair.2
        (List.mem_map.mpr ⟨pair', hpair', hname⟩) (List.mem_map.mpr ⟨pair, hpair, rfl⟩)
      subst hjj
      have hpp := List.inj_on_of_nodup_map (h.connected.nodup j' hj') hpair' hpair hname
      rw [hpp, hinjective metadata' hm' metadata hm hnum]
      exact htensor
    · refine ⟨Tensor.createShared bitwidth precision [], ?_⟩
      intro j hj pair hpair hname metadata hm hnum
      exact absurd ⟨j, hj, pair, hpair, hname, metadata, hm, hnum⟩ hin
  choose shard hshard using hexists
  refine ⟨shard, fun j hj pair hpair metadata hm => hshard _ _ j hj pair hpair rfl metadata hm rfl, ?_⟩
  intro j hj name hm
  obtain ⟨pair, hpair, rfl⟩ := List.mem_map.mp hm
  obtain ⟨elementType, shape, hbits, houtputs⟩ := h.outputs j hj pair hpair
  refine ⟨elementType, shape, hbits, ?_⟩
  intro i hi
  obtain ⟨metadata, hmeta, rfl⟩ : ∃ metadata ∈ metas, number metadata = i := by
    rw [← List.mem_map, hnumber, List.mem_range]
    exact hi
  obtain ⟨tensor, htensor, htype, hshape⟩ := houtputs metadata hmeta
  cases htensor.symm.trans (hshard _ _ j hj pair hpair rfl metadata hmeta rfl)
  exact ⟨htype, hshape⟩

omit [DecidableEq ElementType] in
theorem Waiting.not_ready {names : Nat → List String} {shard : String → Nat → Tensor bitwidth} {sizes : List Nat}
    {total : Nat} {before : List (Nat × Nat)} {handler : GatherNodeInputHandler bitwidth}
    (h : Waiting names shard sizes total before handler) (hlt : before.length < total) :
    handler.isReady = false := by
  have hremaining := h.remaining
  have hne : handler.remainingDependencies ≠ 0 := by omega
  simp [isReady, hne]

theorem gathers {visit : Iteration (Nat × Tensor bitwidth)} {c : Nat} (hc : 0 < c)
    {collapsingDetails : CollapseDetails}
    (hpos : ∀ size ∈ collapsingDetails.collapsedSessionSizes, 0 < size)
    (hword : c * collapsingDetails.collapsedSessionSizes.prod < sessionIdWord) {gatherFrom : Finset String}
    {mapping : Nat → List (String × String)} {outputs : Nat → NodeSessionMetadata → List (String × Tensor bitwidth)}
    {metas : List NodeSessionMetadata} (hsupplied : Supplied c mapping outputs metas) (precision : ElementType)
    (hids : metas.map (·.getShardId gatherFrom) =
      (List.range collapsingDetails.collapsedSessionSizes.prod).map .ok)
    {arrivals : List (Nat × NodeSessionMetadata)} (harrivals : arrivals.Perm (List.range c ×ˢ metas)) :
    Gathers visit c collapsingDetails gatherFrom mapping outputs metas arrivals := by
  obtain ⟨number, hnum⟩ : ∃ number : NodeSessionMetadata → Nat,
      number = fun metadata => ((metadata.getShardId gatherFrom).toOption).getD 0 := ⟨_, rfl⟩
  have hnumber : ∀ metadata ∈ metas, metadata.getShardId gatherFrom = .ok (number metadata) := by
    intro metadata hm
    have hin : metadata.getShardId gatherFrom ∈ metas.map (·.getShardId gatherFrom) :=
      List.mem_map.mpr ⟨metadata, hm, rfl⟩
    rw [hids] at hin
    obtain ⟨i, _, hi⟩ := List.mem_map.mp hin
    subst hnum
    show _ = Except.ok ((metadata.getShardId gatherFrom).toOption.getD 0)
    rw [← hi]
    rfl
  have hrange : metas.map number = List.range collapsingDetails.collapsedSessionSizes.prod := by
    have hoption := congrArg (List.map fun id => (Except.toOption id).getD 0) hids
    rw [List.map_map, List.map_map] at hoption
    rw [hnum]
    exact hoption.trans (List.map_id _)
  obtain ⟨shard, hshard, huniform⟩ := hsupplied.shards precision hrange
  have hmem : ∀ arrival ∈ arrivals, arrival.1 < c ∧ arrival.2 ∈ metas := by
    intro arrival hm
    obtain ⟨hj, hmeta⟩ := List.mem_product.mp (harrivals.mem_iff.mp hm)
    exact ⟨List.mem_range.mp hj, hmeta⟩
  have hnumbers : (arrivals.map fun arrival => (arrival.1, number arrival.2)).Perm
      (List.range c ×ˢ List.range collapsingDetails.collapsedSessionSizes.prod) := by
    rw [← hrange, ← map_product]
    exact harrivals.map _
  have hlength := hnumbers.length_eq
  rw [List.length_product, List.length_range, List.length_range, List.length_map] at hlength
  refine ⟨?_, ?_⟩
  · intro before after hsplit hafter
    rw [hsplit, List.map_append] at hnumbers
    obtain ⟨handler, hrun, hwaiting⟩ := waiting_run visit shard rfl hpos hword hsupplied.connected
      (by simpa using hafter) hnumbers
    refine ⟨handler, ?_, hwaiting.not_ready ?_⟩
    · rw [gather_arrive hnumber hshard fun arrival hm => hmem arrival (by rw [hsplit]; exact List.mem_append_left _ hm)]
      exact hrun
    · have hlong := List.length_pos_iff.mpr hafter
      rw [hsplit, List.length_append] at hlength
      rw [List.length_map]
      omega
  · rcases List.eq_nil_or_concat arrivals with rfl | ⟨before, last, rfl⟩
    · have htotal : 0 < c * collapsingDetails.collapsedSessionSizes.prod := Nat.mul_pos hc (List.prod_pos hpos)
      rw [List.length_nil] at hlength
      omega
    · rw [List.concat_eq_append] at hmem hnumbers
      rw [List.concat_eq_append, gather_arrive hnumber hshard hmem, List.map_append, List.foldlM_append]
      rw [List.map_append] at hnumbers
      obtain ⟨handler, hrun, hwaiting⟩ := waiting_run visit shard rfl hpos hword hsupplied.connected
        (by simp) hnumbers
      obtain ⟨next, hlast, hready, hinputs⟩ := hwaiting.last visit hsupplied.connected huniform hnumbers
      refine ⟨next, ?_, hready, ?_⟩
      · rw [hrun, ok_bind, List.map_singleton, List.foldlM_cons, hlast]
        rfl
      · intro j hj pair hpair
        obtain ⟨tensor, htensor, hconsolidated⟩ := hinputs j hj pair.2 (List.mem_map.mpr ⟨pair, hpair, rfl⟩)
        refine ⟨tensor, shard pair.2, htensor, ?_, hconsolidated⟩
        intro metadata hm i hi
        rw [hshard j hj pair hpair metadata hm]
        cases hi.symm.trans (hnumber metadata hm)
        rfl

omit [DecidableEq ElementType] in
/-- The tensor that holds the shards of a tensor is the tensor. -/
theorem consolidated_shards {stringType : ElementType} {sizes : List Nat} {whole tensor : Tensor bitwidth}
    (hsplits : Node.Splits stringType sizes whole) (hpos : 0 < sizes.prod) {shard : Nat → Tensor bitwidth}
    (hshard : ∀ i < sizes.prod, shard i = whole.shard sizes.length i) (h : Consolidated sizes shard tensor) :
    tensor = whole := by
  have htype : tensor.elementType = whole.elementType := by
    rw [h.elementType 0 hpos, hshard 0 hpos]
    rfl
  have hshape : tensor.shape = whole.shape := by
    obtain ⟨rest, hrest, _⟩ := hsplits.shape
    rw [h.shape 0 hpos, hshard 0 hpos]
    show sizes ++ whole.shape.drop sizes.length = whole.shape
    rw [hrest, List.drop_left]
  apply Tensor.ext' htype hshape
  apply RowMajor.ext_block (m := sizes.prod)
    (n := byteSize (bitwidth whole.elementType) (whole.shape.drop sizes.length))
  · rw [tensor.size_eq, htype, hshape, ← whole.size_eq]
    exact Node.shard_size hsplits
  · exact Node.shard_size hsplits
  · intro i hi
    have hblock := h.shards i hi
    rw [hshard i hi, Node.shard_data hsplits hi] at hblock
    exact hblock

end ModelServer.GatherNodeInputHandler

namespace ModelServer.Node

open NodeSessionMetadata GatherNodeInputHandler

/-- The sessions of some levels below a session, and their outputs when the outputs of the session are split there. -/
theorem demultiplied_shards {ElementType : Type} [DecidableEq ElementType] {bitwidth : ElementType → Nat}
    {stringType : ElementType} {metadata : NodeSessionMetadata} {levels : List (String × Nat)}
    (hfresh : Fresh metadata levels) (hlevels : levels ≠ [])
    (hsizes : ∀ level ∈ levels, 0 < level.2 ∧ level.2 ≤ DEMULTIPLY_LIMIT)
    (hword : (levels.map Prod.snd).prod < sessionIdWord)
    {count : String → Int} (hcount : ∀ level ∈ levels, count level.1 = -1 ∨ count level.1 = level.2)
    {tensorMap : List (String × Tensor bitwidth)} (hne : tensorMap ≠ []) (hnames : (tensorMap.map Prod.fst).Nodup)
    (hsplits : ∀ output ∈ tensorMap, Splits stringType (levels.map Prod.snd) output.2) :
    ∃ leaves, demultiplyLevels stringType metadata tensorMap (levels.map fun level => (level.1, count level.1)) =
        .ok leaves ∧
      leaves.map Prod.fst = (RowMajor.indexes (levels.map Prod.snd)).map (below metadata levels) ∧
      ∀ output ∈ tensorMap, ∀ shard tensor,
        (∀ leaf ∈ leaves, ∀ i, leaf.1.getShardId (levels.map Prod.fst).toFinset = .ok i →
          leaf.2.lookup output.1 = some (shard i)) →
        Consolidated (levels.map Prod.snd) shard tensor → tensor = output.2 := by
  refine ⟨_, demultiplyLevels_eq hfresh hsizes hcount hne hsplits, ?_, ?_⟩
  · rw [List.map_map]
    rfl
  · intro output hm shard tensor hshard hconsolidated
    have hpos : 0 < (levels.map Prod.snd).prod := by
      apply List.prod_pos
      intro size hsize
      obtain ⟨level, hlevel, rfl⟩ := List.mem_map.mp hsize
      exact (hsizes level hlevel).1
    apply consolidated_shards (hsplits output hm) hpos _ hconsolidated
    intro i hi
    obtain ⟨index, hindex, rfl⟩ : ∃ index ∈ RowMajor.indexes (levels.map Prod.snd),
        RowMajor.offset (levels.map Prod.snd) index = i := by
      rw [← List.mem_map, RowMajor.indexes_offset, List.mem_range]
      exact hi
    have hid := getShardId_below hfresh hlevels (RowMajor.mem_indexes hindex) hword
    have hlookup := hshard _ (List.mem_map.mpr ⟨index, hindex, rfl⟩) _ hid
    have hfound : (tensorMap.map fun output => (output.1, output.2.shard levels.length
        (RowMajor.offset (levels.map Prod.snd) index))).lookup output.1 =
          some (output.2.shard levels.length (RowMajor.offset (levels.map Prod.snd) index)) := by
      apply lookup_of_mem
      · rw [List.map_map]
        exact hnames
      · exact List.mem_map.mpr ⟨output, hm, rfl⟩
    rw [List.length_map]
    exact Option.some.inj (hlookup.symm.trans hfound)

/-- A shard of three elements of four bits. -/
def nibbles : Tensor (fun _ : Unit => 4) := Tensor.createShared _ () [1, 1, 3]

end ModelServer.Node
