import ModelServer.CycleDetection
import ModelServer.NodeInputs
import ModelServer.PipelineSessions
import ModelServer.ShardedOutputs
import ModelServer.TensorInfo

namespace ModelServer

namespace Dimension

/-- `Dimension(dim)`, which throws below -1. -/
def ofValue (dim : Int) : Except String Dimension :=
  if dim < -1 then .error "Range must not be lower than -1"
  else if dim = -1 then .ok any
  else .ok (static dim.toNat)

def partiallyFitsInto (dimension next : Dimension) : Bool :=
  if next.isAny || dimension.isAny then true
  else if dimension.isStatic then next.match dimension.maximum
  else if next.isStatic then dimension.match next.maximum
  else if dimension.maximum < next.minimum then false
  else if next.maximum < dimension.minimum then false
  else true

theorem match_any (value : Nat) : any.match value = true := by
  have hany : any.isAny = true := rfl
  unfold Dimension.match
  rw [if_neg (by omega), if_pos hany]

theorem match_static (value : Nat) : (static value).match value = true := by
  have hnot : ¬ (value : Int) = -1 := by omega
  have hlow : ¬ (value : Int) < -1 := by omega
  simp [Dimension.match, static, isAny, isStatic, hnot, hlow]

end Dimension

namespace PipelineDefinition

/-- What the models and the libraries of the nodes say of their outputs, in the order of the names, and the names that a
node gives to its outputs. -/
structure NodeOutputs where
  outputsInfo : NodeInfo → Except DefinitionStatus (List (String × TensorInfo))
  outputNameAliases : NodeInfo → Aliases

variable (definition : PipelineDefinition) (inputs : NodeInputs) (outputs : NodeOutputs)

def validateShapeWithDemultiplexer (shape : Shape) (demultiplicatorNodeInfo : NodeInfo) : Except DefinitionStatus Unit :=
  match demultiplicatorNodeInfo.demultiplyCount with
  | none => .ok ()
  | some demultiplyCount =>
    match shape with
    | dimension :: _ :: _ :: _ =>
      if demultiplyCount ≠ -1 ∧ dimension.isAny = false then
        match Dimension.ofValue demultiplyCount with
        | .error _ => .error (.metadata "std::invalid_argument")
        | .ok demultiplyDimension =>
          if dimension.partiallyFitsInto demultiplyDimension then .ok ()
          else .error (.metadata "PIPELINE_DEMULTIPLY_COUNT_DOES_NOT_MATCH_TENSOR_SHARD_COUNT")
      else .ok ()
    | _ => .error (.metadata "PIPELINE_NOT_ENOUGH_SHAPE_DIMENSIONS_TO_DEMULTIPLY")

/-- The check of the outputs of a node, after any other checks of it. -/
def NodeOutputs.checkNode (node : NodeInfo → Except DefinitionStatus Unit) (dependantNodeInfo : NodeInfo) :
    Except DefinitionStatus Unit := do
  node dependantNodeInfo
  if dependantNodeInfo.kind = .DL ∨ dependantNodeInfo.kind = .CUSTOM then
    let outputsInfo ← outputs.outputsInfo dependantNodeInfo
    outputsInfo.forM fun output => validateShapeWithDemultiplexer output.2.shape dependantNodeInfo

def checkConnectionMappedToExistingDataSource (dependencyNodeInfo : NodeInfo) (dataSource : String) :
    Except DefinitionStatus Unit :=
  match (outputs.outputNameAliases dependencyNodeInfo).lookup dataSource with
  | none => .error (.metadata "PIPELINE_NODE_REFERING_TO_MISSING_DATA_SOURCE")
  | some modelOutputName =>
    if dependencyNodeInfo.kind = .DL ∨ dependencyNodeInfo.kind = .CUSTOM then
      match outputs.outputsInfo dependencyNodeInfo with
      | .error status => .error status
      | .ok dependencyOutputsInfo =>
        if (dependencyOutputsInfo.lookup modelOutputName).isSome then .ok ()
        else .error (.metadata "PIPELINE_NODE_REFERING_TO_MISSING_MODEL_OUTPUT")
    else .ok ()

/-- The check of the outputs that a connection takes, after any other checks of it. -/
def NodeOutputs.checkConnection (connection : NodeInfo → NodeInfo → Aliases → Except DefinitionStatus Unit)
    (dependantNodeInfo dependencyNodeInfo : NodeInfo) (mapping : Aliases) : Except DefinitionStatus Unit := do
  connection dependantNodeInfo dependencyNodeInfo mapping
  mapping.forM fun mapped => checkConnectionMappedToExistingDataSource outputs dependencyNodeInfo mapped.1

def NodeOutputs.checks (node : NodeInfo → Except DefinitionStatus Unit)
    (connection : NodeInfo → NodeInfo → Aliases → Except DefinitionStatus Unit) : MetadataChecks :=
  inputs.checks definition (outputs.checkNode node) (outputs.checkConnection connection)

/-- The dimension that the count of a demultiplexer stands for. -/
def configuredDimension (someNodeInfo : NodeInfo) : Except String Dimension :=
  let demultiplyCount := someNodeInfo.demultiplyCount.getD 0
  if demultiplyCount = 0 then .ok .any else Dimension.ofValue demultiplyCount

/-- The dimension of a demultiplexer, where one is found. -/
def gatherDimension (someNodeInfo : NodeInfo) : Except String (Option Dimension) :=
  match configuredDimension someNodeInfo with
  | .error message => .error message
  | .ok dim =>
    if dim.isAny = true ∧ someNodeInfo.kind = .CUSTOM then
      match outputs.outputsInfo someNodeInfo with
      | .error _ => .ok none
      | .ok nodeOutputsInfo =>
        match nodeOutputsInfo.head?.map (·.2.shape) with
        -- only the first output is looked at
        | some (dim :: _ :: _ :: _) => .ok (some dim)
        | _ => .ok none
    else .ok (some dim)

/-- What the search adds at a node; without a dimension it ends there. -/
def gatherDimensions (info : NodeInfo) (nodeName : String) : Except String (Option Shape) :=
  if nodeName ∉ info.gatherFromNode then .ok (some [])
  else match definition.findNodeByName nodeName with
    | none => .error "undefined"
    | some someNodeInfo => (gatherDimension outputs someNodeInfo).map (·.map ([·]))

structure GatherSearch where
  nodeName : String
  shape : Shape

/-- One call of `search`. Of the connections of a node only the first is followed. -/
def searchGather (connections : Connections) (info : NodeInfo) (search : GatherSearch) :
    GatherSearch ⊕ Except String Shape :=
  match connections.lookup search.nodeName with
  | none => .inr (.ok search.shape)
  | some connected =>
    match definition.gatherDimensions outputs info search.nodeName with
    | .error message => .inr (.error message)
    | .ok none => .inr (.ok search.shape)
    | .ok (some dims) =>
      match connected with
      | [] => .inr (.ok (search.shape ++ dims))
      | (dependency, _) :: _ => .inl ⟨dependency, search.shape ++ dims⟩

/-- `getNodeGatherShape` returns this shape, or throws. -/
def GetNodeGatherShape (connections : Connections) (info : NodeInfo) (result : Except String Shape) : Prop :=
  if info.gatherFromNode = ∅ then result = .ok []
  else ∃ searched, Loop.Exits (definition.searchGather outputs connections info) ⟨info.nodeName, []⟩ searched ∧
    result = match searched with
      | .error message => .error message
      | .ok shape =>
        if info.gatherFromNode.card ≠ shape.length then
          .error "Gather shape has different number of dimensions that gather from node elements"
        else .ok shape.reverse

/-- A demultiplexer has cut its outputs into `count` shards. A library has told the truth about the tensors it made. -/
def NodeOutputs.Demultiplies (info : NodeInfo) (count : Nat) : Prop :=
  ∃ (node : ShardedOutputs.NodeKind) (unread : Nat) (levels : List (String × Nat)) (index : List Nat)
    (tensorMap : ShardedOutputs.TensorWithSourceMap) (results : ShardedOutputs.SessionResults),
    NodeSessionMetadata.Fresh {} levels ∧ index.length = levels.length ∧
    ShardedOutputs.demultiplyOutputs node info.nodeName info.demultiplyCount unread
      (NodeSessionMetadata.below {} levels index) tensorMap = .ok (.ok (), results) ∧ results.length = count ∧
    (info.kind = .CUSTOM → ∀ output ∈ tensorMap.entries, ∃ outputsInfo realName tensorInfo,
      outputs.outputsInfo info = .ok outputsInfo ∧ (output.1, realName) ∈ outputs.outputNameAliases info ∧
      (realName, tensorInfo) ∈ outputsInfo ∧ Shape.match tensorInfo.shape (output.2.shape.map Int.ofNat) = true)

/-- The dimension that is reported for a demultiplexer. -/
def reportedDimension (nodeName : String) : Option Dimension :=
  (definition.findNodeByName nodeName).bind fun info => (gatherDimension outputs info).toOption.join

/-- A library with a count that depends on its outputs says the same of the first dimension of each of them, or leaves
that of the first open. -/
def NodeOutputs.Uniform : Prop :=
  ∀ info ∈ definition.nodeInfos, info.kind = .CUSTOM → info.demultiplyCount = some (-1) →
    ∀ begin rest, outputs.outputsInfo info = .ok (begin :: rest) → begin.2.shape.head? = some .any ∨
      ∀ output ∈ rest, output.2.shape.head? = begin.2.shape.head?

/-- A reported shape is that of the shards that a node gathers, on every path to it. -/
def ShapeAgrees (info : NodeInfo) (shape : Shape) : Prop :=
  ∀ (levels : List (String × Nat)) (index : List Nat), Arrives definition info (levels.map Prod.fst) →
    index.length = levels.length →
    (∀ level ∈ levels, ∃ demultiplexer, definition.findNodeByName level.1 = some demultiplexer ∧
      outputs.Demultiplies demultiplexer level.2) →
    ∃ collapsed details, (NodeSessionMetadata.below {} levels index).getCollapsedSessionMetadata info.gatherFromNode =
        .ok (collapsed, details) ∧
      details.collapsedSessionNames.toFinset = info.gatherFromNode ∧
      shape.map some = details.collapsedSessionNames.map (definition.reportedDimension outputs) ∧
      List.Forall₂ (fun dim size => dim.match size = true) shape (details.collapsedSessionSizes.map Int.ofNat)

variable {definition inputs outputs}

section Checks

variable {checks : MetadataChecks}

theorem validateConnections_checked {node : NodeInfo} {connections : List (String × Aliases)}
    (h : definition.validateConnections checks node connections = .ok ()) :
    ∀ connected ∈ connections, connected.2 ≠ [] ∧ ∃ info, definition.findNodeByName connected.1 = some info ∧
      checks.connection node info connected.2 = .ok () := by
  induction connections with
  | nil => simp
  | cons first connections ih =>
    obtain ⟨name, mapping⟩ := first
    rw [validateConnections] at h
    split at h
    next => cases h
    next hmapping =>
      split at h
      next => cases h
      next info hinfo =>
        split at h
        next => cases h
        next hconnection =>
          intro connected hm
          rcases List.mem_cons.mp hm with rfl | hm
          · refine ⟨by simpa using hmapping, info, ?_, hconnection⟩
            unfold getDependencyNodeInfo at hinfo
            split at hinfo
            next => cases hinfo
            next found hfound =>
              split at hinfo
              next => cases hinfo
              next =>
                cases hinfo
                exact hfound
          · exact ih h connected hm

/-- The validation of the nodes has made the checks of each node and of each connection. -/
theorem validateNodes_checked (h : definition.validateNodes checks = .ok ()) :
    ∀ node ∈ definition.nodeInfos, checks.node node = .ok () ∧
      ∀ connected ∈ (definition.connections.lookup node.nodeName).getD [], connected.2 ≠ [] ∧
        ∃ info, definition.findNodeByName connected.1 = some info ∧
          checks.connection node info connected.2 = .ok () := by
  have heach : ∀ nodes, definition.validateEach checks nodes = .ok () → ∀ node ∈ nodes,
      definition.validateNode checks node = .ok () := by
    intro nodes
    induction nodes with
    | nil => simp
    | cons first nodes ih =>
      intro hnodes
      rw [validateEach] at hnodes
      split at hnodes
      next => cases hnodes
      next =>
        split at hnodes
        next => cases hnodes
        next hfirst =>
          intro node hm
          rcases List.mem_cons.mp hm with rfl | hm
          · exact hfirst
          · exact ih hnodes node hm
  intro node hm
  unfold validateNodes at h
  simp only at h
  split_ifs at h
  have hnode := heach _ h node hm
  unfold validateNode at hnode
  split at hnode
  next => cases hnode
  next hcheck =>
    split at hnode
    next => cases hnode
    next =>
      split at hnode
      next => cases hnode
      next hconnections => exact ⟨hcheck, validateConnections_checked hconnections⟩

end Checks

section Dimensions

/-- The outputs that a library reports for a demultiplexer all have a first dimension, once they have been checked. -/
theorem checkNode_shapes {node : NodeInfo → Except DefinitionStatus Unit} {info : NodeInfo}
    (h : outputs.checkNode node info = .ok ()) (hkind : info.kind = .CUSTOM) (hsome : info.demultiplyCount.isSome) :
    ∃ outputsInfo, outputs.outputsInfo info = .ok outputsInfo ∧
      ∀ output ∈ outputsInfo, ∃ dim second third shape, output.2.shape = dim :: second :: third :: shape := by
  unfold NodeOutputs.checkNode at h
  obtain ⟨_, _, h⟩ := CheckedSteps.bind_eq_ok.mp h
  rw [if_pos (.inr hkind)] at h
  obtain ⟨outputsInfo, houtputs, h⟩ := CheckedSteps.bind_eq_ok.mp h
  refine ⟨outputsInfo, houtputs, ?_⟩
  intro output hm
  have hshape := CheckedSteps.forM_ok h output hm
  obtain ⟨demultiplyCount, hcount⟩ := Option.isSome_iff_exists.mp hsome
  unfold validateShapeWithDemultiplexer at hshape
  rw [hcount] at hshape
  simp only at hshape
  split at hshape
  next dim second third shape heq => exact ⟨dim, second, third, shape, heq⟩
  next => cases hshape

/-- A node that another one is connected to has an output. -/
theorem checkConnection_outputs {connection : NodeInfo → NodeInfo → Aliases → Except DefinitionStatus Unit}
    {dependant info : NodeInfo} {mapping : Aliases} (h : outputs.checkConnection connection dependant info mapping = .ok ())
    (hne : mapping ≠ []) (hkind : info.kind = .CUSTOM) : outputs.outputsInfo info ≠ .ok [] := by
  intro hnone
  unfold NodeOutputs.checkConnection at h
  obtain ⟨_, _, h⟩ := CheckedSteps.bind_eq_ok.mp h
  obtain ⟨mapped, rest, rfl⟩ := List.exists_cons_of_ne_nil hne
  have hmapped := CheckedSteps.forM_ok h mapped List.mem_cons_self
  unfold checkConnectionMappedToExistingDataSource at hmapped
  split at hmapped
  next => cases hmapped
  next =>
    rw [if_pos (.inr hkind), hnone] at hmapped
    cases hmapped

/-- A dimension is found for a demultiplexer whose library has told its outputs. -/
theorem gatherDimension_ok {info : NodeInfo} (hcount : ∀ count ∈ info.demultiplyCount, -1 ≤ count)
    (hcustom : info.kind = .CUSTOM → ∃ begin rest, outputs.outputsInfo info = .ok (begin :: rest) ∧
      ∃ dim second third shape, begin.2.shape = dim :: second :: third :: shape) :
    ∃ dim, gatherDimension outputs info = .ok (some dim) := by
  have hmade : ∃ dim, configuredDimension info = .ok dim := by
    unfold configuredDimension
    simp only
    split
    next => exact ⟨_, rfl⟩
    next hne =>
      have hlow : ¬ info.demultiplyCount.getD 0 < -1 := by
        cases hsome : info.demultiplyCount with
        | none => simp
        | some count =>
          have hle := hcount count hsome
          simpa using hle
      unfold Dimension.ofValue
      rw [if_neg hlow]
      split
      next => exact ⟨_, rfl⟩
      next => exact ⟨_, rfl⟩
  obtain ⟨dim, hdim⟩ := hmade
  simp only [gatherDimension, hdim]
  split
  next hkind =>
    obtain ⟨begin, rest, houtputs, dim', second, third, shape, hshape⟩ := hcustom hkind.2
    exact ⟨dim', by simp only [houtputs, List.head?_cons, Option.map_some, hshape]⟩
  next => exact ⟨dim, rfl⟩

/-- The number of shards, where the count of the demultiplexer is given. -/
theorem Demultiplies.count_eq {info : NodeInfo} {count : Nat} (h : outputs.Demultiplies info count) {demultiplyCount : Int}
    (hcount : info.demultiplyCount = some demultiplyCount) (hfixed : demultiplyCount ≠ -1) :
    (count : Int) = demultiplyCount % 2 ^ 64 ∧ count ≠ 0 := by
  obtain ⟨node, unread, levels, index, tensorMap, results, hfresh, hlength, hok, rfl, _⟩ := h
  obtain ⟨found, hfound, _, hresults, hall⟩ := ShardedOutputs.demultiplyOutputs_ok hfresh hlength hok
  cases hcount.symm.trans hfound
  have hbegin := hall tensorMap.begin List.mem_cons_self
  obtain ⟨dim, rest, hshape, hdim⟩ := ShardedOutputs.exists_dim_of_refusal hbegin
  have hne := ShardedOutputs.count_ne_zero_of_refusal hbegin
  rw [← hresults] at hne
  have hlen : results.length = dim := by
    rw [hresults, ShardedOutputs.demultiplyCount, hshape]
    rfl
  rw [hlen] at hne ⊢
  exact ⟨hdim hfixed, hne⟩

/-- The number of shards of the outputs of a library is one that it has told. -/
theorem Demultiplies.told {info : NodeInfo} {count : Nat} (h : outputs.Demultiplies info count) (hkind : info.kind = .CUSTOM) :
    ∃ outputsInfo output dim, outputs.outputsInfo info = .ok outputsInfo ∧ output ∈ outputsInfo ∧
      output.2.shape.head? = some dim ∧ dim.match count = true := by
  obtain ⟨node, unread, levels, index, tensorMap, results, hfresh, hlength, hok, rfl, htruthful⟩ := h
  obtain ⟨found, hfound, _, hresults, hall⟩ := ShardedOutputs.demultiplyOutputs_ok hfresh hlength hok
  have hbegin := hall tensorMap.begin List.mem_cons_self
  obtain ⟨dim, rest, hshape, _⟩ := ShardedOutputs.exists_dim_of_refusal hbegin
  obtain ⟨outputsInfo, realName, tensorInfo, houtputs, _, hm, hmatch⟩ :=
    htruthful hkind tensorMap.begin List.mem_cons_self
  rw [hshape] at hmatch
  cases htold : tensorInfo.shape with
  | nil =>
    rw [htold] at hmatch
    cases hmatch
  | cons first others =>
    rw [htold, List.map_cons] at hmatch
    unfold Shape.match at hmatch
    rw [Bool.and_eq_true] at hmatch
    refine ⟨outputsInfo, (realName, tensorInfo), first, houtputs, hm, by rw [htold]; rfl, ?_⟩
    have hlen : results.length = dim := by
      rw [hresults, ShardedOutputs.demultiplyCount, hshape]
      rfl
    rw [hlen]
    exact hmatch.1

theorem gatherDimension_match {info : NodeInfo} (hm : info ∈ definition.nodeInfos)
    (hcount : ∀ count ∈ info.demultiplyCount, -1 ≤ count ∧ count < 2 ^ 31) (huniform : outputs.Uniform definition)
    {count : Nat} (h : outputs.Demultiplies info count) {dim : Dimension}
    (hdim : gatherDimension outputs info = .ok (some dim)) : dim.match count = true := by
  obtain ⟨node, unread, levels, index, tensorMap, results, hfresh, hlength, hok, _⟩ := id h
  obtain ⟨demultiplyCount, hsome, _⟩ := ShardedOutputs.demultiplyOutputs_ok hfresh hlength hok
  obtain ⟨hlow, hhigh⟩ := hcount demultiplyCount hsome
  by_cases hfixed : demultiplyCount = -1
  · subst hfixed
    have hany : configuredDimension info = .ok .any := by
      unfold configuredDimension
      rw [hsome]
      rfl
    simp only [gatherDimension, hany] at hdim
    split at hdim
    next hkind =>
      obtain ⟨outputsInfo, output, told, houtputs, houtput, htold, hmatch⟩ := Demultiplies.told h hkind.2
      rw [houtputs] at hdim
      cases outputsInfo with
      | nil => cases houtput
      | cons begin rest =>
        have hbegin : begin.2.shape.head? = some dim := by
          simp only [List.head?_cons, Option.map_some] at hdim
          split at hdim
          next first second third shape heq =>
            cases hdim
            rw [Option.some.inj heq]
            rfl
          next => cases hdim
        rcases huniform info hm hkind.2 hsome begin rest houtputs with hopen | hsame
        · rw [hbegin] at hopen
          rw [Option.some.inj hopen]
          exact Dimension.match_any count
        · have heq : output.2.shape.head? = begin.2.shape.head? := by
            rcases List.mem_cons.mp houtput with rfl | houtput
            · rfl
            · exact hsame output houtput
          rw [htold, hbegin] at heq
          rw [← Option.some.inj heq]
          exact hmatch
    next =>
      cases hdim
      exact Dimension.match_any count
  · obtain ⟨hvalue, hne⟩ := Demultiplies.count_eq h hsome hfixed
    have hpos : demultiplyCount = count := by omega
    have hzero : ¬ demultiplyCount = 0 := by omega
    have hstatic : configuredDimension info = .ok (.static count) := by
      unfold configuredDimension
      simp only [hsome, Option.getD_some]
      unfold Dimension.ofValue
      rw [if_neg hzero, if_neg (by omega), if_neg hfixed, hpos, Int.toNat_natCast]
    have hnot : ¬ ((Dimension.static count).isAny = true ∧ info.kind = .CUSTOM) := by
      simp [Dimension.isAny, Dimension.static]
    simp only [gatherDimension, hstatic, if_neg hnot] at hdim
    cases hdim
    exact Dimension.match_static count

end Dimensions

section Detection

/-- The connections that a search for cycles without a result leaves behind: those of the definition, with an entry for
every node that leads to the exit. -/
structure Entered (definition : PipelineDefinition) (connections : Connections) : Prop where
  same : ∀ name, (connections.lookup name).getD [] = (definition.connections.lookup name).getD []
  entries : ∀ exit ∈ definition.nodeInfos, exit.kind = .EXIT → ∀ name, Leads definition exit.nodeName name →
    (connections.lookup name).isSome

theorem entered (hchecked : Checked definition) {detection : CycleDetection}
    (h : definition.ValidatesForCycles (.ok ()) detection) : Entered definition detection.connections := by
  unfold ValidatesForCycles at h
  split at h
  next => cases h.1
  next exit hfound =>
    have hexit : exit ∈ definition.nodeInfos := List.mem_of_find?_eq_some hfound
    have hkind : exit.kind = .EXIT := by simpa using List.find?_some hfound
    have hall := Loop.Exits.invariant (I := Detecting definition exit.nodeName)
      (Q := fun outcome => outcome.1 = .ok () →
        (∀ name, (outcome.2.connections.lookup name).getD [] = (definition.connections.lookup name).getD []) ∧
        ∀ name, Leads definition exit.nodeName name → (outcome.2.connections.lookup name).isSome)
      ?_ ?_ h (detecting_initial exit.nodeName)
    · obtain ⟨hsame, hentries⟩ := hall rfl
      refine ⟨hsame, ?_⟩
      intro exit' hexit' hkind'
      rw [hchecked.exits exit' hexit' exit hexit hkind' hkind]
      exact hentries
    · exact fun detection next hdetecting hround => hdetecting.kept hround
    · intro detection outcome hdetecting hround hok
      rw [hdetecting.round, searchCycles] at hround
      split at hround
      next =>
        cases Sum.inr.inj hround
        cases hok
      next => cases hround
      next hnext =>
        split at hround
        next hparent =>
          have hvisited := (hdetecting.finished hnext hparent).1
          split at hround
          next =>
            cases Sum.inr.inj hround
            cases hok
          next =>
            cases Sum.inr.inj hround
            constructor
            · intro name
              show ((access _ _).lookup name).getD [] = _
              rw [lookup_access, hdetecting.connections]
            · exact fun name hleads => hdetecting.accessed name ((hvisited name).mpr hleads)
        next => cases hround

/-- The search over the connections that change goes as the one over those of the definition. -/
theorem validateForCycles_of_detection {detection : CycleDetection}
    (h : definition.ValidatesForCycles (.ok ()) detection) : definition.validateForCycles (.ok ()) := by
  cases hfound : definition.nodeInfos.find? (·.kind = .EXIT) with
  | none =>
    simp only [ValidatesForCycles, hfound] at h
    cases h.1
  | some exit =>
    simp only [ValidatesForCycles, hfound] at h
    simp only [validateForCycles, hfound]
    have hsimulated : ∃ status, Loop.Exits definition.searchCycles ⟨exit.nodeName, [exit.nodeName], []⟩ status ∧
        .ok () = status := by
      refine Loop.Exits.simulate
        (R := fun detection search => Detecting definition exit.nodeName detection ∧ search = detection.search)
        (Q := fun outcome status => outcome.1 = status) ?_ ?_ h ⟨detecting_initial exit.nodeName, rfl⟩
      · rintro detection search next ⟨hdetecting, rfl⟩ hround
        have hkept := hdetecting.kept hround
        rw [hdetecting.round] at hround
        cases hsearch : definition.searchCycles detection.search with
        | inr status =>
          rw [hsearch] at hround
          cases hround
        | inl search =>
          rw [hsearch] at hround
          cases Sum.inl.inj hround
          exact ⟨search, rfl, hkept, rfl⟩
      · rintro detection search outcome ⟨hdetecting, rfl⟩ hround
        rw [hdetecting.round] at hround
        cases hsearch : definition.searchCycles detection.search with
        | inl next =>
          rw [hsearch] at hround
          cases hround
        | inr status =>
          rw [hsearch] at hround
          cases Sum.inr.inj hround
          exact ⟨status, rfl, rfl⟩
    obtain ⟨status, hexits, hstatus⟩ := hsimulated
    rw [← hstatus] at hexits
    exact hexits

end Detection

section Search

variable {exit : NodeInfo} {order : List String} {levels gathered : String → List String}

theorem Levelled.length_gathered (h : Levelled definition levels gathered) {node : NodeInfo}
    (hm : node ∈ definition.nodeInfos) : (gathered node.nodeName).length = node.gatherFromNode.card := by
  have hnodup := (List.nodup_append.mp (List.nodup_append.mp (h.nodup node hm)).1).2.1
  rw [← h.gathers node hm, List.toFinset_card_of_nodup hnodup]

/-- On every path the same levels arrive at a node. -/
theorem Levelled.arrives (h : Levelled definition levels gathered) {node : NodeInfo} {arriving : List String}
    (harrives : Arrives definition node arriving) :
    node ∈ definition.nodeInfos ∧ arriving = levels node.nodeName ++ gathered node.nodeName := by
  induction harrives with
  | entry hm hentry =>
    obtain ⟨hlevels, hgathered, _⟩ := h.entry _ hm hentry
    rw [hlevels, hgathered]
    exact ⟨hm, rfl⟩
  | @next dependency node arriving _ hm hfound hdependency ih =>
    obtain ⟨hin, harriving⟩ := ih
    refine ⟨hm, ?_⟩
    have hcard : (levels dependency.nodeName ++ gathered dependency.nodeName).length - dependency.gatherFromNode.card =
        (levels dependency.nodeName).length := by
      rw [List.length_append, h.length_gathered hin, Nat.add_sub_cancel]
    rw [← h.edges node hm dependency hfound hdependency, outputLevels, sessionLevels, harriving, hcard, List.take_left]

/-- The levels of the sessions that arrive at a node are those of nodes before it. -/
theorem Levelled.before (h : Levelled definition levels gathered) (hchecked : Checked definition)
    (hacyclic : Acyclic definition exit.nodeName order) (hfed : Fed definition) {node : NodeInfo}
    (hm : node ∈ definition.nodeInfos) : ∀ level ∈ levels node.nodeName ++ gathered node.nodeName,
      DependencyOrder.rank order level < DependencyOrder.rank order node.nodeName := by
  generalize hrank : DependencyOrder.rank order node.nodeName = n
  induction n using Nat.strongRecOn generalizing node with
  | ind n ih =>
    by_cases hkind : node.kind = .ENTRY
    · obtain ⟨hlevels, hgathered, _⟩ := h.entry node hm hkind
      rw [hlevels, hgathered]
      nofun
    · obtain ⟨dependency, hdependency⟩ := List.exists_mem_of_ne_nil _ (hfed node hm hkind)
      obtain ⟨info, hinfo, _⟩ := hchecked.dependencies node hm dependency hdependency
      obtain ⟨hin, rfl⟩ := findNodeByName_mem hinfo
      have hlt := hacyclic.ordered.rank_lt (hacyclic.names node hm).1 hdependency
      rw [hrank] at hlt
      intro level hlevel
      rw [← h.edges node hm info hinfo hdependency] at hlevel
      rcases List.mem_append.mp hlevel with hlevel | hlevel
      · exact (ih _ hlt hin rfl level (List.mem_append_left _ hlevel)).trans hlt
      · split at hlevel
        next =>
          rw [List.mem_singleton.mp hlevel]
          exact hlt
        next => cases hlevel

/-- The search at a node: what it has met are the last of the gathered levels, the others are still to come. -/
structure Collecting (definition : PipelineDefinition) (outputs : NodeOutputs) (levels gathered : String → List String)
    (order : List String) (info node : NodeInfo) (met : List String) (shape : Shape) : Prop where
  mem : node ∈ definition.nodeInfos
  gathered : gathered info.nodeName = (levels node.nodeName ++ gathered node.nodeName ++ [node.nodeName]).filter
    (decide <| · ∈ info.gatherFromNode) ++ met
  shape : shape.reverse.map some = met.map (definition.reportedDimension outputs)
  behind : ∀ name ∈ met, DependencyOrder.rank order node.nodeName < DependencyOrder.rank order name

theorem collecting_start (h : Levelled definition levels gathered) {info : NodeInfo} (hm : info ∈ definition.nodeInfos) :
    Collecting definition outputs levels gathered order info info [] [] := by
  refine ⟨hm, ?_, rfl, nofun⟩
  have hgathers : ∀ name, name ∈ info.gatherFromNode ↔ name ∈ gathered info.nodeName := by
    intro name
    rw [← h.gathers info hm, List.mem_toFinset]
  obtain ⟨hlevels, _, hself⟩ := List.nodup_append.mp (h.nodup info hm)
  obtain ⟨_, _, hapart⟩ := List.nodup_append.mp hlevels
  rw [List.filter_append, List.filter_append, List.filter_eq_nil_iff.mpr, List.filter_eq_self.mpr,
    List.filter_eq_nil_iff.mpr, List.nil_append, List.append_nil, List.append_nil]
  · intro name hname hin
    have hin := (hgathers name).mp (of_decide_eq_true hin)
    exact hself name (List.mem_append_right _ hin) name hname rfl
  · intro name hname
    exact decide_eq_true ((hgathers name).mpr hname)
  · intro name hname hin
    have hin := (hgathers name).mp (of_decide_eq_true hin)
    exact hapart name hname name hin rfl

/-- What the search adds at a node. -/
theorem gatherDimensions_ok {info node : NodeInfo} (hfound : definition.findNodeByName node.nodeName = some node)
    (hdims : node.nodeName ∈ info.gatherFromNode → ∃ dim, gatherDimension outputs node = .ok (some dim)) :
    ∃ dims, definition.gatherDimensions outputs info node.nodeName = .ok (some dims) ∧
      dims.reverse.map some =
        ([node.nodeName].filter (decide <| · ∈ info.gatherFromNode)).map (definition.reportedDimension outputs) := by
  unfold gatherDimensions
  by_cases hin : node.nodeName ∈ info.gatherFromNode
  · obtain ⟨dim, hdim⟩ := hdims hin
    refine ⟨[dim], by simp only [if_neg (not_not.mpr hin), hfound, hdim]; rfl, ?_⟩
    rw [List.filter_cons_of_pos (by simpa using hin), List.filter_nil, List.map_singleton, reportedDimension, hfound,
      Option.bind_some, hdim]
    rfl
  · refine ⟨[], by rw [if_pos hin], ?_⟩
    rw [List.filter_cons_of_neg (by simpa using hin)]
    rfl

/-- The search goes on at a dependency. -/
theorem Collecting.next (h : Levelled definition levels gathered) (hchecked : Checked definition)
    (hacyclic : Acyclic definition exit.nodeName order) (hfed : Fed definition) {info node dependency : NodeInfo}
    (hinfo : info ∈ definition.nodeInfos) {met : List String} {shape dims : Shape}
    (hcollecting : Collecting definition outputs levels gathered order info node met shape)
    (hdims : dims.reverse.map some =
      ([node.nodeName].filter (decide <| · ∈ info.gatherFromNode)).map (definition.reportedDimension outputs))
    (hfound : definition.findNodeByName dependency.nodeName = some dependency)
    (hdependency : dependency.nodeName ∈ definition.connectedTo node.nodeName) :
    Collecting definition outputs levels gathered order info dependency
      ([node.nodeName].filter (decide <| · ∈ info.gatherFromNode) ++ met) (shape ++ dims) := by
  have hm := hcollecting.mem
  have hin := (findNodeByName_mem hfound).1
  have hlt := hacyclic.ordered.rank_lt (hacyclic.names node hm).1 hdependency
  have hbehind : ∀ name ∈ [node.nodeName].filter (decide <| · ∈ info.gatherFromNode) ++ met,
      DependencyOrder.rank order dependency.nodeName < DependencyOrder.rank order name := by
    intro name hname
    rcases List.mem_append.mp hname with hname | hname
    · rw [List.mem_singleton.mp (List.mem_of_mem_filter hname)]
      exact hlt
    · exact hlt.trans (hcollecting.behind name hname)
  have hedge := h.edges node hm dependency hfound hdependency
  have hsplit : gathered info.nodeName = (levels node.nodeName ++ gathered node.nodeName).filter
      (decide <| · ∈ info.gatherFromNode) ++ ([node.nodeName].filter (decide <| · ∈ info.gatherFromNode) ++ met) := by
    rw [hcollecting.gathered, List.filter_append, List.append_assoc]
  -- what the dependency gathers is not what is looked for: that has been met, or is above the dependency
  have hapart : (gathered dependency.nodeName).filter (decide <| · ∈ info.gatherFromNode) = [] := by
    apply List.filter_eq_nil_iff.mpr
    intro name hname hgathers
    have hbefore := h.before hchecked hacyclic hfed hin name (List.mem_append_right _ hname)
    have hgathered : name ∈ gathered info.nodeName := by
      rw [← List.mem_toFinset, h.gathers info hinfo]
      exact of_decide_eq_true hgathers
    rw [hsplit] at hgathered
    obtain ⟨hnodup, _, _⟩ := List.nodup_append.mp (h.nodup dependency hin)
    rcases List.mem_append.mp hgathered with hgathered | hgathered
    · have hmem := List.mem_of_mem_filter hgathered
      rw [← hedge] at hmem
      rcases List.mem_append.mp hmem with hmem | hmem
      · exact (List.nodup_append.mp hnodup).2.2 name hmem name hname rfl
      · split at hmem
        next =>
          rw [List.mem_singleton.mp hmem] at hbefore
          exact Nat.lt_irrefl _ hbefore
        next => cases hmem
    · exact absurd (hbehind name hgathered) hbefore.not_gt
  have hopened : (if dependency.demultiplyCount.isSome then [dependency.nodeName] else []).filter
      (decide <| · ∈ info.gatherFromNode) = [dependency.nodeName].filter (decide <| · ∈ info.gatherFromNode) := by
    split
    next => rfl
    next hnone =>
      symm
      apply List.filter_cons_of_neg
      intro hgathers
      obtain ⟨found, hfound', hsome⟩ := hchecked.gathered info hinfo _ (of_decide_eq_true hgathers)
      cases hfound.symm.trans hfound'
      exact hnone hsome
  refine ⟨hin, ?_, ?_, hbehind⟩
  · rw [hsplit, ← hedge, List.filter_append, List.filter_append, List.filter_append, hapart, hopened, List.append_nil]
  · rw [List.reverse_append, List.map_append, List.map_append, hdims, hcollecting.shape]

/-- The search ends at the entry with the dimensions of all that is gathered. -/
theorem Collecting.exits (h : Levelled definition levels gathered) (hchecked : Checked definition)
    (hacyclic : Acyclic definition exit.nodeName order) (hfed : Fed definition) {connections : Connections}
    (hsame : ∀ name, (connections.lookup name).getD [] = (definition.connections.lookup name).getD [])
    (hentries : ∀ node ∈ definition.nodeInfos, (connections.lookup node.nodeName).isSome) {info node : NodeInfo}
    (hinfo : info ∈ definition.nodeInfos)
    (hdims : ∀ node ∈ definition.nodeInfos, node.nodeName ∈ info.gatherFromNode →
      ∃ dim, gatherDimension outputs node = .ok (some dim))
    {met : List String} {shape : Shape}
    (hcollecting : Collecting definition outputs levels gathered order info node met shape) :
    ∃ searched, Loop.Exits (definition.searchGather outputs connections info) ⟨node.nodeName, shape⟩ (.ok searched) ∧
      searched.reverse.map some = (gathered info.nodeName).map (definition.reportedDimension outputs) := by
  generalize hrank : DependencyOrder.rank order node.nodeName = n
  induction n using Nat.strongRecOn generalizing node met shape with
  | ind n ih =>
    have hm := hcollecting.mem
    have hfound := hchecked.find hm
    obtain ⟨connected, hconnected⟩ := Option.isSome_iff_exists.mp (hentries node hm)
    have hnames : connected.map Prod.fst = definition.connectedTo node.nodeName := by
      have hlookup := hsame node.nodeName
      rw [hconnected] at hlookup
      rw [connectedTo, ← hlookup]
      rfl
    obtain ⟨dims, hgather, hadded⟩ := gatherDimensions_ok hfound (hdims node hm)
    cases connected with
    | nil =>
      have hentry : node.kind = .ENTRY := by
        by_contra hkind
        exact hfed node hm hkind hnames.symm
      obtain ⟨hlevels, hgathered, _⟩ := h.entry node hm hentry
      refine ⟨shape ++ dims, .leave ?_, ?_⟩
      · simp only [searchGather, hconnected, hgather]
      · rw [hcollecting.gathered, hlevels, hgathered, List.reverse_append, List.map_append, List.map_append, hadded,
          hcollecting.shape]
        rfl
    | cons first rest =>
      have hdependency : first.1 ∈ definition.connectedTo node.nodeName := by
        rw [← hnames]
        exact List.mem_cons_self
      obtain ⟨dependency, hfoundDependency, _⟩ := hchecked.dependencies node hm _ hdependency
      have hname := (findNodeByName_mem hfoundDependency).2
      rw [← hname] at hdependency hfoundDependency
      have hnext := hcollecting.next h hchecked hacyclic hfed hinfo hadded hfoundDependency hdependency
      have hlt := hacyclic.ordered.rank_lt (hacyclic.names node hm).1 hdependency
      rw [hrank] at hlt
      obtain ⟨searched, hexits, hsearched⟩ := ih _ hlt hnext rfl
      refine ⟨searched, .again ?_ hexits, hsearched⟩
      simp only [searchGather, hconnected, hgather, hname]

end Search

/-- A dimension is found for every node that is gathered. -/
theorem gatherDimension_gathered {node : NodeInfo → Except DefinitionStatus Unit}
    {connection : NodeInfo → NodeInfo → Aliases → Except DefinitionStatus Unit}
    (hnodes : definition.validateNodes (outputs.checks definition inputs node connection) = .ok ()) {exit : NodeInfo}
    {order : List String} (hexit : exit ∈ definition.nodeInfos) (hkind : exit.kind = .EXIT)
    (hacyclic : Acyclic definition exit.nodeName order)
    (hcounts : ∀ info ∈ definition.nodeInfos, ∀ count ∈ info.demultiplyCount, -1 ≤ count ∧ count < 2 ^ 31)
    {info gather : NodeInfo} (hinfo : info ∈ definition.nodeInfos) (hm : gather ∈ definition.nodeInfos)
    (hgathers : gather.nodeName ∈ info.gatherFromNode) : ∃ dim, gatherDimension outputs gather = .ok (some dim) := by
  have hchecked := validateNodes_ok hnodes
  apply gatherDimension_ok (fun count hcount => (hcounts gather hm count hcount).1)
  intro hcustom
  obtain ⟨found, hfound, hsome⟩ := hchecked.gathered info hinfo _ hgathers
  cases (hchecked.find hm).symm.trans hfound
  obtain ⟨outputsInfo, houtputs, hshapes⟩ :=
    checkNode_shapes (validateNodes_checked hnodes gather hm).1 hcustom hsome
  have hleads := (hacyclic.names gather hm).2
  generalize hname : gather.nodeName = name at hleads
  cases hleads with
  | exit =>
    cases List.inj_on_of_nodup_map hchecked.names hm hexit hname
    rw [hkind] at hcustom
    cases hcustom
  | @back dependant _ hleads hdependency =>
    obtain ⟨dependantInfo, hdependant, rfl⟩ := List.mem_map.mp (hchecked.leads hexit hleads)
    obtain ⟨connected, hconnected, rfl⟩ := List.mem_map.mp hdependency
    obtain ⟨hne, found, hfoundConnected, hconnection⟩ :=
      (validateNodes_checked hnodes dependantInfo hdependant).2 connected hconnected
    rw [← hname] at hfoundConnected
    cases (hchecked.find hm).symm.trans hfoundConnected
    have hsome := checkConnection_outputs hconnection hne hcustom
    cases outputsInfo with
    | nil => exact absurd houtputs hsome
    | cons begin rest => exact ⟨begin, rest, houtputs, hshapes begin List.mem_cons_self⟩

theorem forall₂_of_map_some {α β γ : Type} {R : β → γ → Prop} {f : α → Option β} {g : α → γ} {xs : List α} {ys : List β}
    (h : ys.map some = xs.map f) (hone : ∀ x ∈ xs, ∀ y, f x = some y → R y (g x)) : List.Forall₂ R ys (xs.map g) := by
  induction xs generalizing ys with
  | nil =>
    rw [List.map_eq_nil_iff.mp h]
    exact .nil
  | cons x xs ih =>
    cases ys with
    | nil => cases h
    | cons y ys =>
      obtain ⟨hfirst, hrest⟩ := List.cons.inj h
      exact .cons (hone x List.mem_cons_self y hfirst.symm) (ih hrest fun x' hx' => hone x' (List.mem_cons_of_mem _ hx'))

theorem reportedDimension_match (hcounts : ∀ info ∈ definition.nodeInfos, ∀ count ∈ info.demultiplyCount,
      -1 ≤ count ∧ count < 2 ^ 31) (huniform : outputs.Uniform definition) {nodeName : String} {demultiplexer : NodeInfo}
    (hfound : definition.findNodeByName nodeName = some demultiplexer) {count : Nat}
    (h : outputs.Demultiplies demultiplexer count) {dim : Dimension}
    (hdim : definition.reportedDimension outputs nodeName = some dim) : dim.match count = true := by
  have hm := (findNodeByName_mem hfound).1
  rw [reportedDimension, hfound, Option.bind_some] at hdim
  cases hgather : gatherDimension outputs demultiplexer with
  | error message =>
    rw [hgather] at hdim
    cases hdim
  | ok found =>
    rw [hgather] at hdim
    have hfoundDim : found = some dim := hdim
    rw [hfoundDim] at hgather
    exact gatherDimension_match hm (hcounts _ hm) huniform h hgather

/-- A library that cuts crops out of an image, as many as there are, and tells where they were. -/
def cropping : PipelineDefinition where
  nodeInfos := [⟨.ENTRY, "request", none, ∅⟩, ⟨.CUSTOM, "crops", some (-1), ∅⟩, ⟨.EXIT, "response", none, {"crops"}⟩]
  connections := [("crops", [("request", [("image", "image")])]), ("response", [("crops", [("images", "images")])])]
  dependants_nodup := by decide
  dependencies_nodup := by decide

def croppingInputs : NodeInputs where
  inputsInfo := fun _ => {"image"}
  nonempty := fun _ _ => Finset.singleton_nonempty _

/-- What a library says of an output. -/
def croppingOutput (name : String) (count : Nat) : String × TensorInfo :=
  (name, { TensorInfo.getUnspecifiedTensorInfo with name := name, shape := [.static count, .static 1, .static 1] })

/-- The library tells of so many boxes, and of three crops. -/
def croppingOutputs (boxes : Nat) : NodeOutputs where
  outputsInfo := fun _ => .ok [croppingOutput "boxes" boxes, croppingOutput "images" 3]
  outputNameAliases := fun _ => [("image", "image"), ("images", "images")]

def croppingExit : NodeInfo := ⟨.EXIT, "response", none, {"crops"}⟩

theorem cropping_nodes (boxes : Nat) (hboxes : boxes = 2 ∨ boxes = 3) :
    cropping.validateNodes ((croppingOutputs boxes).checks cropping croppingInputs (fun _ => .ok ()) fun _ _ _ => .ok ()) =
      .ok () := by
  rcases hboxes with rfl | rfl
  · decide
  · decide

theorem cropping_detection : ∃ detection, cropping.ValidatesForCycles (.ok ()) detection :=
  ⟨_, Loop.exits_of_iterate (show Loop.iterate _ 20 _ = _ from rfl)⟩

theorem cropping_order : cropping.validateDemultiplexerGatherNodesOrder (.ok ()) :=
  Loop.exits_of_iterate (show Loop.iterate _ 20 _ = _ by decide)

/-- The crops are the only output that is connected; there are three of them. -/
theorem crops_demultiplied (boxes : Nat) :
    (croppingOutputs boxes).Demultiplies ⟨.CUSTOM, "crops", some (-1), ∅⟩ 3 := by
  obtain ⟨tensorMap, hentries, hrun⟩ : ∃ tensorMap : ShardedOutputs.TensorWithSourceMap,
      tensorMap.entries = [("images", ShardedOutputs.zeros [3, 1, 1])] ∧
      (ShardedOutputs.demultiplyOutputs .Node "crops" (some (-1)) 0 (NodeSessionMetadata.below {} [] [])
        tensorMap).toOption.map (fun outcome => (outcome.1.toOption, outcome.2.length)) = some (some (), 3) :=
    ⟨⟨("images", ShardedOutputs.zeros [3, 1, 1]), [], by simp⟩, rfl, by decide⟩
  cases hresult : ShardedOutputs.demultiplyOutputs .Node "crops" (some (-1)) 0 (NodeSessionMetadata.below {} [] [])
      tensorMap with
  | error message =>
    rw [hresult] at hrun
    cases hrun
  | ok outcome =>
    obtain ⟨status, results⟩ := outcome
    rw [hresult] at hrun
    obtain ⟨hstatus, hlength⟩ := Prod.mk.inj (Option.some.inj hrun)
    cases status with
    | error => cases hstatus
    | ok =>
      refine ⟨.Node, 0, [], [], tensorMap, results, ⟨by simp, by simp, by simp, by simp⟩, rfl, hresult, hlength, ?_⟩
      intro _ output hm
      rw [hentries] at hm
      rw [List.mem_singleton.mp hm]
      exact ⟨_, "images", (croppingOutput "images" 3).2, rfl, by simp [croppingOutputs],
        List.mem_cons_of_mem _ List.mem_cons_self, by decide⟩

end PipelineDefinition

end ModelServer
