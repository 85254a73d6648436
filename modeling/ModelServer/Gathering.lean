import ModelServer.GatherNodeInputHandler
import Mathlib.Data.List.ProdSigma
import Mathlib.Data.List.Nodup

namespace ModelServer.GatherNodeInputHandler

variable {ElementType : Type} {bitwidth : ElementType → Nat}

/-- The storage holds these shards of each input, in the order of their arrival. -/
structure Stores (handler : GatherNodeInputHandler bitwidth) (shards : String → List (Nat × Tensor bitwidth)) :
    Prop where
  found : ∀ name, handler.shardsStorage.lookup name = if shards name = [] then none else some (shards name)
  nodup : (handler.shardsStorage.map Prod.fst).Nodup

/-- The shards after one more of an input. -/
def given (shards : String → List (Nat × Tensor bitwidth)) (inputName : String) (shard : Nat × Tensor bitwidth) :
    String → List (Nat × Tensor bitwidth) :=
  fun name => if name = inputName then shards name ++ [shard] else shards name

theorem setInput_stores {handler : GatherNodeInputHandler bitwidth} {shards : String → List (Nat × Tensor bitwidth)}
    (h : Stores handler shards) (inputName : String) (tensor : Tensor bitwidth) {shardId : Nat}
    (hnew : shardId ∉ (shards inputName).map Prod.fst) :
    ∃ storage, handler.setInput inputName tensor shardId = .ok { handler with shardsStorage := storage } ∧
      Stores { handler with shardsStorage := storage } (given shards inputName (shardId, tensor)) := by
  have hfound := h.found inputName
  unfold setInput
  split at hfound
  next hnone =>
    rw [hfound]
    refine ⟨_, rfl, ?_, ?_⟩
    · intro name
      have hname := h.found name
      show List.lookup name (handler.shardsStorage ++ [(inputName, [(shardId, tensor)])]) = _
      rw [List.lookup_append, hname]
      unfold given
      by_cases heq : name = inputName
      · subst heq
        simp [hnone]
      · rw [if_neg heq, List.lookup_cons, beq_false_of_ne heq]
        simp
    · show ((handler.shardsStorage ++ [(inputName, [(shardId, tensor)])]).map Prod.fst).Nodup
      rw [List.map_append, List.nodup_append]
      refine ⟨h.nodup, by simp, ?_⟩
      intro name hm other hother heq
      have hother : other = inputName := by simpa using hother
      subst hother heq
      exact lookup_eq_none.mp hfound hm
  next hsome =>
    rw [hfound]
    have hlookup : (shards inputName).lookup shardId = none := lookup_eq_none.mpr hnew
    simp only [hlookup, Option.isSome_none, Bool.false_eq_true, ↓reduceIte]
    refine ⟨_, rfl, ?_, ?_⟩
    · intro name
      have hname := h.found name
      refine (lookup_alter handler.shardsStorage inputName (· ++ [(shardId, tensor)]) name).trans ?_
      rw [hname]
      unfold given
      by_cases heq : name = inputName
      · subst heq
        simp [hsome]
      · simp only [heq, ↓reduceIte]
        split <;> rfl
    · show ((handler.shardsStorage.map _).map Prod.fst).Nodup
      rw [List.map_map]
      exact h.nodup

/-- One shard for each of some inputs. -/
theorem setInputs_stores {handler : GatherNodeInputHandler bitwidth}
    {shards : String → List (Nat × Tensor bitwidth)} (h : Stores handler shards) {names : List String}
    (hnames : names.Nodup) (shard : String → Tensor bitwidth) {shardId : Nat}
    (hnew : ∀ name ∈ names, shardId ∉ (shards name).map Prod.fst) :
    ∃ storage, names.foldlM (fun (handler : GatherNodeInputHandler bitwidth) name =>
        handler.setInput name (shard name) shardId) handler = .ok { handler with shardsStorage := storage } ∧
      Stores { handler with shardsStorage := storage }
        (fun name => if name ∈ names then shards name ++ [(shardId, shard name)] else shards name) := by
  induction names generalizing handler shards with
  | nil => exact ⟨handler.shardsStorage, rfl, by simpa using h⟩
  | cons first names ih =>
    obtain ⟨hfirst, hrest⟩ := List.nodup_cons.mp hnames
    obtain ⟨storage, hset, hstores⟩ := setInput_stores h first (shard first) (hnew first List.mem_cons_self)
    obtain ⟨storage', hset', hstores'⟩ := ih hstores hrest (by
      intro name hm
      have hne : name ≠ first := by
        rintro rfl
        exact hfirst hm
      rw [given, if_neg hne]
      exact hnew name (List.mem_cons_of_mem _ hm))
    refine ⟨storage', ?_, ?_⟩
    · rw [List.foldlM_cons, hset]
      exact hset'
    · have heq : (fun name => if name ∈ names then given shards first (shardId, shard first) name ++
            [(shardId, shard name)] else given shards first (shardId, shard first) name) =
          fun name => if name ∈ first :: names then shards name ++ [(shardId, shard name)] else shards name := by
        funext name
        unfold given
        by_cases hname : name = first
        · subst hname
          simp [hfirst]
        · simp [hname]
      rw [heq] at hstores'
      exact hstores'

section Consolidation

variable [DecidableEq ElementType]

/-- The copies of shards of one type and shape. -/
theorem copyShards {elementType : ElementType} {shape : List Nat} {m : Nat}
    {shard : Nat → Tensor bitwidth} (htype : ∀ i < m, (shard i).elementType = elementType)
    (hshape : ∀ i < m, (shard i).shape = shape) {first : Tensor bitwidth} (hfirst : first = shard 0) (hm : 0 < m)
    {order : List Nat} (horder : ∀ i ∈ order, i < m) {tensor : Tensor bitwidth}
    (hsize : tensor.data.length = m * byteSize (bitwidth elementType) shape) :
    ∃ result, (order.map fun i => (i, shard i)).foldlM
        (fun (tensor : Tensor bitwidth) (shardId, shard) => copyShard first tensor shardId shard) tensor = .ok result ∧
      result.elementType = tensor.elementType ∧ result.shape = tensor.shape ∧
      result.data = order.foldl (fun b i => RowMajor.overwrite b (i * byteSize (bitwidth elementType) shape)
        (shard i).data) tensor.data := by
  induction order generalizing tensor with
  | nil => exact ⟨tensor, rfl, rfl, rfl, rfl⟩
  | cons i order ih =>
    have hi : i < m := horder i List.mem_cons_self
    have hbytes : (shard i).get_byte_size = byteSize (bitwidth elementType) shape := by
      rw [Tensor.get_byte_size, htype i hi, hshape i hi]
    have hlength : (shard i).data.length = byteSize (bitwidth elementType) shape := by
      rw [← hbytes]
      exact (shard i).size_eq
    have hle : (i + 1) * byteSize (bitwidth elementType) shape ≤ m * byteSize (bitwidth elementType) shape :=
      Nat.mul_le_mul_right _ hi
    rw [Nat.succ_mul] at hle
    have hfit : i * byteSize (bitwidth elementType) shape + (shard i).data.length ≤ tensor.data.length := by
      rw [hlength, hsize]
      exact hle
    have hcopy : ∃ next, copyShard first tensor i (shard i) = .ok next ∧ next.elementType = tensor.elementType ∧
        next.shape = tensor.shape ∧ next.data = RowMajor.overwrite tensor.data
          (i * byteSize (bitwidth elementType) shape) (shard i).data := by
      unfold copyShard Tensor.memcpy
      rw [if_neg, hbytes, dif_pos hfit]
      · exact ⟨_, rfl, rfl, rfl, rfl⟩
      · rw [hfirst, htype i hi, hshape i hi, htype 0 hm, hshape 0 hm]
        simp
    obtain ⟨next, hnext, htype', hshape', hdata⟩ := hcopy
    obtain ⟨result, hfold, hrtype, hrshape, hrdata⟩ := ih 
      (fun j hj => horder j (List.mem_cons_of_mem _ hj)) (by
        rw [hdata, RowMajor.length_overwrite hfit]
        exact hsize)
    refine ⟨result, ?_, hrtype.trans htype', hrshape.trans hshape', ?_⟩
    · rw [List.map_cons, List.foldlM_cons]
      show (copyShard first tensor i (shard i) >>= _) = _
      rw [hnext]
      exact hfold
    · rw [hrdata, hdata]
      rfl

/-- A tensor that holds shards of one type and shape, each at its place. -/
structure Consolidated (sizes : List Nat) (shard : Nat → Tensor bitwidth) (tensor : Tensor bitwidth) : Prop where
  elementType : ∀ i < sizes.prod, tensor.elementType = (shard i).elementType
  shape : ∀ i < sizes.prod, tensor.shape = sizes ++ (shard i).shape
  shards : ∀ i < sizes.prod, RowMajor.block (shard i).get_byte_size i tensor.data = (shard i).data

theorem consolidate_shards (visit : Iteration (Nat × Tensor bitwidth)) {sizes : List Nat}
    {elementType : ElementType} (hbits : 8 ∣ bitwidth elementType) {shape : List Nat} {shard : Nat → Tensor bitwidth}
    (htype : ∀ i < sizes.prod, (shard i).elementType = elementType)
    (hshape : ∀ i < sizes.prod, (shard i).shape = shape) (hpos : 0 < sizes.prod)
    {order : List Nat} (horder : order.Perm (List.range sizes.prod)) :
    ∃ tensor, consolidate visit sizes (order.map fun i => (i, shard i)) = .ok tensor ∧
      Consolidated sizes shard tensor := by
  have hkeys : (order.map fun i => (i, shard i)).map Prod.fst = order := by
    rw [List.map_map]
    exact List.map_id _
  have hfirst : (order.map fun i => (i, shard i)).lookup 0 = some (shard 0) := by
    apply lookup_of_mem
    · rw [hkeys]
      exact horder.nodup_iff.mpr List.nodup_range
    · exact List.mem_map.mpr ⟨0, horder.mem_iff.mpr (List.mem_range.mpr hpos), rfl⟩
  have hpair : ∀ entry ∈ visit.order (order.map fun i => (i, shard i)), (entry.1, shard entry.1) = entry := by
    intro entry hm
    obtain ⟨i, _, rfl⟩ := List.mem_map.mp ((visit.perm _).mem_iff.mp hm)
    rfl
  obtain ⟨visited, hvisited⟩ : ∃ visited, visited = (visit.order (order.map fun i => (i, shard i))).map Prod.fst :=
    ⟨_, rfl⟩
  have hvisit : visit.order (order.map fun i => (i, shard i)) = visited.map fun i => (i, shard i) := by
    rw [hvisited, List.map_map]
    exact ((List.map_congr_left hpair).trans (List.map_id _)).symm
  have hperm : visited.Perm (List.range sizes.prod) := by
    rw [hvisited]
    refine ((visit.perm _).map _).trans ?_
    rw [hkeys]
    exact horder
  have hmem : ∀ i, i ∈ visited ↔ i < sizes.prod := fun i => hperm.mem_iff.trans List.mem_range
  have hblocks : ∀ i < sizes.prod, (shard i).data.length = byteSize (bitwidth elementType) shape := by
    intro i hi
    rw [(shard i).size_eq, htype i hi, hshape i hi]
  have hbuffer : (Tensor.createShared bitwidth (shard 0).elementType (sizes ++ (shard 0).shape)).data.length =
      sizes.prod * byteSize (bitwidth elementType) shape := by
    rw [Tensor.size_eq, ← byteSize_append hbits, ← htype 0 hpos, ← hshape 0 hpos]
    rfl
  obtain ⟨tensor, hfold, hrtype, hrshape, hrdata⟩ :=
    copyShards htype hshape rfl hpos (fun i hi => (hmem i).mp hi) hbuffer
  refine ⟨tensor, ?_, ?_, ?_, ?_⟩
  · unfold consolidate
    rw [hfirst]
    show (visit.order _).foldlM _ _ = _
    rw [hvisit]
    exact hfold
  · intro i hi
    rw [hrtype, htype i hi]
    exact htype 0 hpos
  · intro i hi
    rw [hrshape, hshape i hi]
    show sizes ++ (shard 0).shape = _
    rw [hshape 0 hpos]
  · intro i hi
    have hbytes : (shard i).get_byte_size = byteSize (bitwidth elementType) shape := by
      rw [Tensor.get_byte_size, htype i hi, hshape i hi]
    rw [hbytes, hrdata]
    exact RowMajor.block_overwrites hblocks hmem hbuffer hi

theorem consolidate_storage (visit : Iteration (Nat × Tensor bitwidth)) (sizes : List Nat)
    {storage : List (String × List (Nat × Tensor bitwidth))} (hnodup : (storage.map Prod.fst).Nodup)
    (hshards : ∀ name shardMap, (name, shardMap) ∈ storage → ∃ tensor, consolidate visit sizes shardMap = .ok tensor)
    {inputTensors : List (String × Tensor bitwidth)}
    (hnew : ∀ name ∈ storage.map Prod.fst, inputTensors.lookup name = none) :
    ∃ result, storage.foldlM
        (fun (inputTensors : List (String × Tensor bitwidth)) (inputName, shardMap) => do
          let consolidatedTensor ← consolidate visit sizes shardMap
          return if (inputTensors.lookup inputName).isSome then inputTensors
            else inputTensors ++ [(inputName, consolidatedTensor)])
        inputTensors = (.ok result : Except StatusCode _) ∧
      (∀ name tensor, inputTensors.lookup name = some tensor → result.lookup name = some tensor) ∧
      ∀ name shardMap, (name, shardMap) ∈ storage →
        ∃ tensor, consolidate visit sizes shardMap = .ok tensor ∧ result.lookup name = some tensor := by
  induction storage generalizing inputTensors with
  | nil => exact ⟨inputTensors, rfl, fun _ _ h => h, by simp⟩
  | cons entry storage ih =>
    obtain ⟨name, shardMap⟩ := entry
    obtain ⟨hfirst, hrest⟩ := List.nodup_cons.mp hnodup
    obtain ⟨tensor, htensor⟩ := hshards name shardMap List.mem_cons_self
    have hnone : inputTensors.lookup name = none := hnew name (by simp)
    have hadded : (inputTensors ++ [(name, tensor)]).lookup name = some tensor := by
      rw [List.lookup_append, hnone]
      simp
    have hothers : ∀ n ∈ storage.map Prod.fst, (inputTensors ++ [(name, tensor)]).lookup n = none := by
      intro n hm
      have hne : n ≠ name := by
        rintro rfl
        exact hfirst hm
      rw [List.lookup_append, hnew n (List.mem_cons_of_mem _ hm), List.lookup_cons, beq_false_of_ne hne]
      rfl
    obtain ⟨result, hfold, hkept, hfound⟩ :=
      ih hrest (fun n m hm => hshards n m (List.mem_cons_of_mem _ hm)) hothers
    refine ⟨result, ?_, ?_, ?_⟩
    · rw [List.foldlM_cons]
      simp only [htensor, hnone, Option.isSome_none, Bool.false_eq_true, ↓reduceIte]
      exact hfold
    · intro n t ht
      apply hkept
      rw [List.lookup_append, ht]
      rfl
    · intro n m hm
      rcases List.mem_cons.mp hm with heq | hm
      · cases heq
        exact ⟨tensor, htensor, hkept _ _ hadded⟩
      · exact hfound n m hm

end Consolidation

section Arrivals

/-- A dependency hands over one shard of each of its inputs. -/
def arrive [DecidableEq ElementType] (visit : Iteration (Nat × Tensor bitwidth)) (names : Nat → List String)
    (shard : String → Nat → Tensor bitwidth) (handler : GatherNodeInputHandler bitwidth) (arrival : Nat × Nat) :
    Except StatusCode (GatherNodeInputHandler bitwidth) := do
  let handler ← (names arrival.1).foldlM (fun (handler : GatherNodeInputHandler bitwidth) name =>
    handler.setInput name (shard name arrival.2) arrival.2) handler
  handler.notifyFinishedDependency visit

variable {visit : Iteration (Nat × Tensor bitwidth)} {names : Nat → List String}
  {shard : String → Nat → Tensor bitwidth} {sizes : List Nat} {c : Nat}

/-- The shards of an input that have arrived. -/
def arrived (names : Nat → List String) (shard : String → Nat → Tensor bitwidth) (before : List (Nat × Nat))
    (name : String) : List (Nat × Tensor bitwidth) :=
  ((before.filter fun arrival => decide (name ∈ names arrival.1)).map Prod.snd).map fun i => (i, shard name i)

theorem arrived_append (before : List (Nat × Nat)) (arrival : Nat × Nat) :
    arrived names shard (before ++ [arrival]) = fun name => if name ∈ names arrival.1 then
      arrived names shard before name ++ [(arrival.2, shard name arrival.2)] else arrived names shard before name := by
  funext name
  unfold arrived
  split
  next hm => simp [hm]
  next hm => simp [hm]

/-- The handler after some of the arrivals. -/
structure Waiting (names : Nat → List String) (shard : String → Nat → Tensor bitwidth) (sizes : List Nat) (total : Nat)
    (before : List (Nat × Nat)) (handler : GatherNodeInputHandler bitwidth) : Prop where
  stores : Stores handler (arrived names shard before)
  remaining : handler.remainingDependencies + before.length = total
  unused : handler.isUsed = false
  inputs : handler.inputTensors = []
  sizes_eq : handler.collapsedSessionSizes = sizes

theorem create_remaining {sizes : List Nat} (hpos : ∀ size ∈ sizes, 0 < size)
    (hword : c * sizes.prod < NodeSessionMetadata.sessionIdWord) :
    sizes.foldl (fun count size => count * size % NodeSessionMetadata.sessionIdWord) c = c * sizes.prod := by
  induction sizes generalizing c with
  | nil => simp
  | cons size sizes ih =>
    have hrest : 0 < sizes.prod := List.prod_pos fun s hs => hpos s (List.mem_cons_of_mem _ hs)
    rw [List.prod_cons, ← Nat.mul_assoc] at hword
    have hsmall : c * size < NodeSessionMetadata.sessionIdWord :=
      lt_of_le_of_lt (Nat.le_mul_of_pos_right _ hrest) hword
    rw [List.foldl_cons, Nat.mod_eq_of_lt hsmall, ih (fun s hs => hpos s (List.mem_cons_of_mem _ hs)) hword,
      List.prod_cons, Nat.mul_assoc]

theorem waiting_create (bitwidth : ElementType → Nat) {collapsingDetails : CollapseDetails}
    {shard : String → Nat → Tensor bitwidth}
    (hpos : ∀ size ∈ collapsingDetails.collapsedSessionSizes, 0 < size)
    (hword : c * collapsingDetails.collapsedSessionSizes.prod < NodeSessionMetadata.sessionIdWord) :
    Waiting names shard collapsingDetails.collapsedSessionSizes (c * collapsingDetails.collapsedSessionSizes.prod) []
      (create bitwidth c collapsingDetails) := by
  refine ⟨⟨?_, List.nodup_nil⟩, ?_, rfl, rfl, rfl⟩
  · intro name
    rfl
  · exact create_remaining hpos hword

/-- The inputs of two dependencies are different. -/
structure Connected (names : Nat → List String) (c : Nat) : Prop where
  nodup : ∀ j < c, (names j).Nodup
  disjoint : ∀ j < c, ∀ j' < c, ∀ name, name ∈ names j → name ∈ names j' → j = j'

/-- The inputs of an arrival are set. -/
theorem Waiting.set {total : Nat} {before : List (Nat × Nat)} {handler : GatherNodeInputHandler bitwidth}
    (h : Waiting names shard sizes total before handler) (hconnected : Connected names c) {j i : Nat} (hj : j < c)
    (hbefore : ∀ arrival ∈ before, arrival.1 < c) (hnew : (j, i) ∉ before) :
    ∃ storage, (names j).foldlM (fun (handler : GatherNodeInputHandler bitwidth) name =>
        handler.setInput name (shard name i) i) handler = .ok { handler with shardsStorage := storage } ∧
      Stores { handler with shardsStorage := storage } (arrived names shard (before ++ [(j, i)])) := by
  have hfresh : ∀ name ∈ names j, i ∉ (arrived names shard before name).map Prod.fst := by
    intro name hm hi
    simp only [arrived, List.map_map, List.mem_map, List.mem_filter, decide_eq_true_eq] at hi
    obtain ⟨⟨j', i'⟩, ⟨hin, hm'⟩, heq⟩ := hi
    have heq : i' = i := heq
    have hjj := hconnected.disjoint j hj j' (hbefore _ hin) name hm hm'
    subst heq hjj
    exact hnew hin
  obtain ⟨storage, hset, hstores⟩ :=
    setInputs_stores h.stores (hconnected.nodup j hj) (fun name => shard name i) hfresh
  refine ⟨storage, hset, ?_⟩
  rw [arrived_append]
  exact hstores

variable [DecidableEq ElementType]

/-- The counter goes down by one. -/
theorem decrement {word n : Nat} (h : n + 1 + 1 < word) : (n + 1 + 1 + (word - 1)) % word = n + 1 := by
  have hsum : n + 1 + 1 + (word - 1) = n + 1 + word := by omega
  rw [hsum, Nat.add_mod_right, Nat.mod_eq_of_lt (by omega)]

theorem notify_waiting {remaining : Nat} (handler : GatherNodeInputHandler bitwidth)
    (hremaining : handler.remainingDependencies = remaining + 1 + 1)
    (hword : handler.remainingDependencies < NodeSessionMetadata.sessionIdWord) :
    handler.notifyFinishedDependency visit = .ok { handler with remainingDependencies := remaining + 1 } := by
  have hcount : (handler.remainingDependencies + (NodeSessionMetadata.sessionIdWord - 1)) %
      NodeSessionMetadata.sessionIdWord = remaining + 1 := by
    rw [hremaining] at hword ⊢
    generalize NodeSessionMetadata.sessionIdWord = word at hword ⊢
    exact decrement hword
  unfold notifyFinishedDependency
  rw [hcount]
  simp

/-- Not the last arrival. -/
theorem Waiting.arrive {total : Nat} {before : List (Nat × Nat)} {handler : GatherNodeInputHandler bitwidth}
    (h : Waiting names shard sizes total before handler) (hconnected : Connected names c) {j i : Nat} (hj : j < c)
    (hbefore : ∀ arrival ∈ before, arrival.1 < c) (hnew : (j, i) ∉ before)
    (hword : total < NodeSessionMetadata.sessionIdWord) (hmore : before.length + 1 < total) :
    ∃ next, arrive visit names shard handler (j, i) = .ok next ∧
      Waiting names shard sizes total (before ++ [(j, i)]) next := by
  obtain ⟨storage, hset, hstores⟩ := h.set hconnected hj hbefore hnew
  have hremaining := h.remaining
  obtain ⟨remaining, heq⟩ : ∃ remaining, handler.remainingDependencies = remaining + 1 + 1 :=
    ⟨handler.remainingDependencies - 2, by omega⟩
  have hsmall : handler.remainingDependencies < NodeSessionMetadata.sessionIdWord := by omega
  have hnext : notifyFinishedDependency visit { handler with shardsStorage := storage } =
      .ok { handler with shardsStorage := storage, remainingDependencies := remaining + 1 } :=
    notify_waiting { handler with shardsStorage := storage } heq hsmall
  refine ⟨{ handler with shardsStorage := storage, remainingDependencies := remaining + 1 }, ?_, ?_⟩
  · unfold GatherNodeInputHandler.arrive
    rw [hset, ok_bind]
    exact hnext
  · refine ⟨⟨hstores.found, hstores.nodup⟩, ?_, h.unused, h.inputs, h.sizes_eq⟩
    rw [List.length_append, List.length_singleton]
    show remaining + 1 + _ = total
    omega

theorem notify_last (visit : Iteration (Nat × Tensor bitwidth)) {handler : GatherNodeInputHandler bitwidth}
    (hremaining : handler.remainingDependencies = 1)
    (hinputs : handler.inputTensors = []) (hnodup : (handler.shardsStorage.map Prod.fst).Nodup)
    (hshards : ∀ name shardMap, (name, shardMap) ∈ handler.shardsStorage →
      ∃ tensor, consolidate visit handler.collapsedSessionSizes shardMap = .ok tensor) :
    ∃ inputTensors, handler.notifyFinishedDependency visit =
        .ok { handler with remainingDependencies := 0, inputTensors := inputTensors } ∧
      ∀ name shardMap, (name, shardMap) ∈ handler.shardsStorage → ∃ tensor,
        consolidate visit handler.collapsedSessionSizes shardMap = .ok tensor ∧
        inputTensors.lookup name = some tensor := by
  have hnone : ∀ name ∈ handler.shardsStorage.map Prod.fst,
      ([] : List (String × Tensor bitwidth)).lookup name = none := fun _ _ => rfl
  obtain ⟨inputTensors, hfold, _, hfound⟩ :=
    consolidate_storage visit handler.collapsedSessionSizes hnodup hshards hnone
  refine ⟨inputTensors, ?_, hfound⟩
  have hcount : (1 + (NodeSessionMetadata.sessionIdWord - 1)) % NodeSessionMetadata.sessionIdWord = 0 := by decide
  unfold notifyFinishedDependency
  simp only [hremaining, hcount, hinputs, hfold, gt_iff_lt, Nat.lt_irrefl, ↓reduceIte]
  rfl

/-- All shards of an input have arrived. -/
theorem arrived_all (hconnected : Connected names c) {m : Nat} {arrivals : List (Nat × Nat)}
    (harrivals : arrivals.Perm (List.range c ×ˢ List.range m)) {j : Nat} (hj : j < c) {name : String}
    (hm : name ∈ names j) :
    ((arrivals.filter fun arrival => decide (name ∈ names arrival.1)).map Prod.snd).Perm (List.range m) := by
  have hmem : ∀ k i, (k, i) ∈ arrivals ↔ k < c ∧ i < m := by
    intro k i
    rw [harrivals.mem_iff, List.mem_product, List.mem_range, List.mem_range]
  have hnodup : arrivals.Nodup := harrivals.nodup_iff.mpr (List.nodup_range.product List.nodup_range)
  apply (List.perm_ext_iff_of_nodup ?_ List.nodup_range).mpr
  · intro i
    simp only [List.mem_map, List.mem_filter, decide_eq_true_eq, List.mem_range]
    constructor
    · rintro ⟨⟨k, i'⟩, ⟨hin, _⟩, rfl⟩
      exact ((hmem k i').mp hin).2
    · intro hi
      exact ⟨(j, i), ⟨(hmem j i).mpr ⟨hj, hi⟩, hm⟩, rfl⟩
  · apply List.Nodup.map_on
    · rintro ⟨k, i⟩ hin ⟨k', i'⟩ hin' heq
      have heq : i = i' := heq
      obtain ⟨hin, hk⟩ := List.mem_filter.mp hin
      obtain ⟨hin', hk'⟩ := List.mem_filter.mp hin'
      have hkk := hconnected.disjoint k ((hmem k i).mp hin).1 k' ((hmem k' i').mp hin').1 name
        (by simpa using hk) (by simpa using hk')
      rw [heq, hkk]
    · exact hnodup.filter _

/-- The shards of each input have one type of whole bytes and one shape. -/
def Uniform (names : Nat → List String) (shard : String → Nat → Tensor bitwidth) (c m : Nat) : Prop :=
  ∀ j < c, ∀ name ∈ names j, ∃ elementType shape, 8 ∣ bitwidth elementType ∧
    ∀ i < m, (shard name i).elementType = elementType ∧ (shard name i).shape = shape

/-- The last arrival puts every input together. -/
theorem Waiting.last (visit : Iteration (Nat × Tensor bitwidth)) {before : List (Nat × Nat)} {handler : GatherNodeInputHandler bitwidth}
    (h : Waiting names shard sizes (c * sizes.prod) before handler) (hconnected : Connected names c)
    (huniform : Uniform names shard c sizes.prod) {j i : Nat}
    (harrivals : (before ++ [(j, i)]).Perm (List.range c ×ˢ List.range sizes.prod)) :
    ∃ next, GatherNodeInputHandler.arrive visit names shard handler (j, i) = .ok next ∧ next.isReady = true ∧
      ∀ k < c, ∀ name ∈ names k, ∃ tensor, next.inputTensors.lookup name = some tensor ∧
        Consolidated sizes (shard name) tensor := by
  have hmem : ∀ arrival ∈ before ++ [(j, i)], arrival.1 < c ∧ arrival.2 < sizes.prod := by
    intro arrival hm
    simpa using List.mem_product.mp (harrivals.mem_iff.mp hm)
  have hlast := hmem (j, i) (by simp)
  have hpos : 0 < sizes.prod := Nat.lt_of_le_of_lt (Nat.zero_le _) hlast.2
  have hnodup : (before ++ [(j, i)]).Nodup :=
    harrivals.nodup_iff.mpr (List.nodup_range.product List.nodup_range)
  have hnew : (j, i) ∉ before := by
    intro hm
    exact (List.nodup_append.mp hnodup).2.2 _ hm _ (by simp) rfl
  obtain ⟨storage, hset, hstores⟩ := h.set hconnected hlast.1
    (fun arrival hm => (hmem arrival (List.mem_append_left _ hm)).1) hnew
  have hlength := harrivals.length_eq
  rw [List.length_product, List.length_range, List.length_range, List.length_append, List.length_singleton] at hlength
  have hremaining : handler.remainingDependencies = 1 := by
    have htotal := h.remaining
    omega
  have hwhole : ∀ k < c, ∀ name ∈ names k, ∃ tensor,
      consolidate visit sizes (arrived names shard (before ++ [(j, i)]) name) = .ok tensor ∧
        Consolidated sizes (shard name) tensor := by
    intro k hk name hm
    obtain ⟨elementType, shape, hbits, hshards⟩ := huniform k hk name hm
    exact consolidate_shards visit hbits (fun i hi => (hshards i hi).1) (fun i hi => (hshards i hi).2) hpos
      (arrived_all hconnected harrivals hk hm)
  have hentry : ∀ name shardMap, (name, shardMap) ∈ storage →
      shardMap = arrived names shard (before ++ [(j, i)]) name ∧ ∃ k < c, name ∈ names k := by
    intro name shardMap hm
    have hlookup := (lookup_of_mem hstores.nodup hm).symm.trans (hstores.found name)
    split at hlookup
    next => cases hlookup
    next hne =>
      refine ⟨Option.some.inj hlookup, ?_⟩
      obtain ⟨shard', hshard⟩ := List.exists_mem_of_ne_nil _ hne
      simp only [arrived, List.map_map, List.mem_map, List.mem_filter, decide_eq_true_eq] at hshard
      obtain ⟨arrival, ⟨hin, hname⟩, _⟩ := hshard
      exact ⟨arrival.1, (hmem arrival hin).1, hname⟩
  obtain ⟨inputTensors, hnotify, hfound⟩ :=
    @notify_last _ _ _ visit { handler with shardsStorage := storage } hremaining h.inputs hstores.nodup (by
      intro name shardMap hm
      obtain ⟨rfl, k, hk, hname⟩ := hentry name shardMap hm
      obtain ⟨tensor, htensor, _⟩ := hwhole k hk name hname
      refine ⟨tensor, ?_⟩
      rw [h.sizes_eq]
      exact htensor)
  refine ⟨{ handler with shardsStorage := storage, remainingDependencies := 0, inputTensors := inputTensors },
    ?_, ?_, ?_⟩
  · unfold GatherNodeInputHandler.arrive
    rw [hset, ok_bind]
    exact hnotify
  · show (!handler.isUsed && (0 == 0)) = true
    rw [h.unused]
    rfl
  · intro k hk name hm
    obtain ⟨tensor, htensor, hconsolidated⟩ := hwhole k hk name hm
    refine ⟨tensor, ?_, hconsolidated⟩
    have harrived : arrived names shard (before ++ [(j, i)]) name ≠ [] := by
      intro hnone
      have hperm := (arrived_all hconnected harrivals hk hm).length_eq
      simp only [arrived, List.map_eq_nil_iff] at hnone
      rw [hnone, List.length_map, List.length_nil, List.length_range] at hperm
      omega
    have hin : (name, arrived names shard (before ++ [(j, i)]) name) ∈ storage := by
      apply mem_of_lookup
      rw [hstores.found name, if_neg harrived]
    obtain ⟨tensor', htensor', hlookup⟩ := hfound _ _ hin
    have hsame : consolidate visit sizes (arrived names shard (before ++ [(j, i)]) name) = .ok tensor' := by
      rw [← h.sizes_eq]
      exact htensor'
    cases htensor.symm.trans hsame
    exact hlookup

/-- The handler after some, but not all, of the arrivals. -/
theorem waiting_run (visit : Iteration (Nat × Tensor bitwidth)) (shard : String → Nat → Tensor bitwidth)
    {collapsingDetails : CollapseDetails} (hsizes : collapsingDetails.collapsedSessionSizes = sizes)
    (hpos : ∀ size ∈ sizes, 0 < size) (hword : c * sizes.prod < NodeSessionMetadata.sessionIdWord)
    (hconnected : Connected names c) {before after : List (Nat × Nat)} (hafter : after ≠ [])
    (harrivals : (before ++ after).Perm (List.range c ×ˢ List.range sizes.prod)) :
    ∃ handler, before.foldlM (GatherNodeInputHandler.arrive visit names shard) (create bitwidth c collapsingDetails) =
        .ok handler ∧ Waiting names shard sizes (c * sizes.prod) before handler := by
  induction before using List.reverseRecOn generalizing after with
  | nil =>
    subst hsizes
    exact ⟨_, rfl, waiting_create bitwidth hpos hword⟩
  | append_singleton before arrival ih =>
    obtain ⟨j, i⟩ := arrival
    rw [List.append_assoc] at harrivals
    obtain ⟨handler, hrun, hwaiting⟩ := ih (by simp) harrivals
    have hmem : ∀ arrival ∈ before ++ ([(j, i)] ++ after), arrival.1 < c := by
      intro arrival hm
      simpa using (List.mem_product.mp (harrivals.mem_iff.mp hm)).1
    have hnodup : (before ++ ([(j, i)] ++ after)).Nodup :=
      harrivals.nodup_iff.mpr (List.nodup_range.product List.nodup_range)
    have hnew : (j, i) ∉ before := by
      intro hm
      exact (List.nodup_append.mp hnodup).2.2 _ hm _ (by simp) rfl
    have hlength := harrivals.length_eq
    rw [List.length_product, List.length_range, List.length_range, List.length_append, List.length_append,
      List.length_singleton] at hlength
    have hmore : before.length + 1 < c * sizes.prod := by
      have hlong := List.length_pos_iff.mpr hafter
      omega
    obtain ⟨next, harrive, hnext⟩ : ∃ next, GatherNodeInputHandler.arrive visit names shard handler (j, i) = .ok next ∧
        Waiting names shard sizes (c * sizes.prod) (before ++ [(j, i)]) next :=
      hwaiting.arrive hconnected (hmem (j, i) (by simp))
        (fun arrival hm => hmem arrival (List.mem_append_left _ hm)) hnew hword hmore
    refine ⟨next, ?_, hnext⟩
    rw [List.foldlM_append, hrun, ok_bind, List.foldlM_cons, harrive, ok_bind]
    rfl

end Arrivals

end ModelServer.GatherNodeInputHandler
