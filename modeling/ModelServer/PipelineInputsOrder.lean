import ModelServer.KeyedFold
import ModelServer.NodeInputs
import ModelServer.PipelineInputsKept
import ModelServer.PipelineRuns

namespace ModelServer.PipelineDefinition

section Events

variable {definition definition' : PipelineDefinition} {metadata : InputsMetadata} {inputsInfo : InputsInfo}

/-- Tensors that cannot be merged are ambiguous. -/
def ofMerge (merged : Option InputsInfo) : Except InputsStatus InputsInfo :=
  match merged with
  | some inputsInfo => .ok inputsInfo
  | none => .error .PIPELINE_INPUTS_AMBIGUOUS_METADATA

theorem updateInputsInfoWithNodeConnection_eq (tensorInfo : TensorInfo) (aliasName : String) :
    updateInputsInfoWithNodeConnection inputsInfo tensorInfo aliasName =
      ofMerge (KeyedFold.updateAt keep inputsInfo (aliasName, some tensorInfo)) := by
  unfold updateInputsInfoWithNodeConnection KeyedFold.updateAt keep mergeTensor
  cases inputsInfo aliasName with
  | none => rfl
  | some found =>
    simp only
    split
    next => rfl
    next => cases found.createIntersection (tensorInfo.aliased aliasName) <;> rfl

theorem insertUnspecified_eq (mapped : String × String) :
    some (insertUnspecified inputsInfo mapped) = KeyedFold.updateAt keep inputsInfo (mapped.1, none) := by
  unfold insertUnspecified KeyedFold.updateAt keep
  cases hfound : inputsInfo mapped.1 with
  | none => rfl
  | some found => simp [← hfound]

/-- What one round of a loop does is what its events do. -/
theorem foldlM_eq_events {α : Type} {round : InputsInfo → α → Except InputsStatus InputsInfo}
    {events : α → List (String × Option TensorInfo)} {rounds : List α}
    (h : ∀ each ∈ rounds, ∀ inputsInfo, round inputsInfo each = ofMerge ((events each).foldlM (KeyedFold.updateAt keep) inputsInfo))
    (inputsInfo : InputsInfo) :
    rounds.foldlM round inputsInfo = ofMerge ((rounds.flatMap events).foldlM (KeyedFold.updateAt keep) inputsInfo) := by
  induction rounds generalizing inputsInfo with
  | nil => rfl
  | cons each rounds ih =>
    rw [List.foldlM_cons, List.flatMap_cons, List.foldlM_append, h each List.mem_cons_self]
    cases (events each).foldlM (KeyedFold.updateAt keep) inputsInfo with
    | none => rfl
    | some next => exact ih (fun each' hm => h each' (List.mem_cons_of_mem _ hm)) next

/-- A dependency of a node, with what is mapped. -/
def Connected (definition : PipelineDefinition) (dependantName : String) (dependency : String × Aliases) : Prop :=
  ∃ connection ∈ definition.connections, connection.1 = dependantName ∧ dependency ∈ connection.2

/-- Every dependency is one of a node that is there and on a node that is there, and the entry depends on nothing. -/
def Walkable (definition : PipelineDefinition) : Prop :=
  ∀ dependantName dependency, Connected definition dependantName dependency → ∃ dependant dependencyInfo,
    definition.findNodeByName dependantName = some dependant ∧
    definition.findNodeByName dependency.1 = some dependencyInfo ∧ dependant.kind ≠ .ENTRY

/-- The node of a model or a library takes inputs of the pipeline. -/
structure Takes (definition : PipelineDefinition) (dependant : NodeInfo) (dependency : String × Aliases) : Prop where
  kind : dependant.kind = .DL ∨ dependant.kind = .CUSTOM
  found : definition.findNodeByName dependant.nodeName = some dependant
  connected : Connected definition dependant.nodeName dependency
  entry : ∃ entry, definition.findNodeByName dependency.1 = some entry ∧ entry.kind = .ENTRY

/-- The metadata of the nodes that take inputs of the pipeline can be read. -/
def Readable (definition : PipelineDefinition) (metadata : InputsMetadata) : Prop :=
  ∀ dependant dependency, Takes definition dependant dependency →
    ∃ info, metadata dependant = .ok info ∧ ∀ mapped ∈ dependency.2, (info mapped.2).isSome

/-- An input of the pipeline feeds the input of a node that has a tensor. -/
def Feeds (definition : PipelineDefinition) (metadata : InputsMetadata) (name : String) (tensor : TensorInfo) : Prop :=
  ∃ dependant dependency info realName, Takes definition dependant dependency ∧ (name, realName) ∈ dependency.2 ∧
    metadata dependant = .ok info ∧ info realName = some tensor

/-- What a node or an output takes for an input. -/
def takenBy (metadata : InputsMetadata) (dependant : NodeInfo) (mapped : String × String) : String × Option TensorInfo :=
  (mapped.1, if dependant.kind = .EXIT then none else (metadata dependant).toOption.bind (· mapped.2))

def dependencyEvents (definition : PipelineDefinition) (metadata : InputsMetadata) (dependantName : String)
    (dependency : String × Aliases) : List (String × Option TensorInfo) :=
  match definition.findNodeByName dependency.1, definition.findNodeByName dependantName with
  | some dependencyInfo, some dependant =>
    if dependencyInfo.kind = .ENTRY then dependency.2.map (takenBy metadata dependant) else []
  | _, _ => []

def inputEvents (definition : PipelineDefinition) (metadata : InputsMetadata) : List (String × Option TensorInfo) :=
  definition.connections.flatMap fun connection => connection.2.flatMap (definition.dependencyEvents metadata connection.1)

theorem mem_inputEvents {event : String × Option TensorInfo} : event ∈ definition.inputEvents metadata ↔
    ∃ dependantName dependency, Connected definition dependantName dependency ∧
      event ∈ definition.dependencyEvents metadata dependantName dependency := by
  simp only [inputEvents, List.mem_flatMap]
  constructor
  · intro h
    obtain ⟨connection, hconnection, dependency, hdependency, hevent⟩ := h
    exact ⟨connection.1, dependency, ⟨connection, hconnection, rfl, hdependency⟩, hevent⟩
  · intro h
    obtain ⟨dependantName, dependency, ⟨connection, hconnection, rfl, hdependency⟩, hevent⟩ := h
    exact ⟨connection, hconnection, dependency, hdependency, hevent⟩

theorem foldl_insertUnspecified (mapping : Aliases) : ofMerge ((mapping.map fun mapped => (mapped.1, none)).foldlM
    (KeyedFold.updateAt keep) inputsInfo) = .ok (mapping.foldl insertUnspecified inputsInfo) := by
  induction mapping generalizing inputsInfo with
  | nil => rfl
  | cons mapped mapping ih =>
    rw [List.map_cons, List.foldlM_cons, ← insertUnspecified_eq]
    exact ih

theorem updateInputsInfoWithNodeConnections_eq {dependant : NodeInfo} {info : String → Option TensorInfo}
    {mapping : Aliases} (hkind : dependant.kind ≠ .EXIT) (hinfo : metadata dependant = .ok info)
    (hall : ∀ mapped ∈ mapping, (info mapped.2).isSome) :
    updateInputsInfoWithNodeConnections inputsInfo mapping info =
      ofMerge ((mapping.map (takenBy metadata dependant)).foldlM (KeyedFold.updateAt keep) inputsInfo) := by
  unfold updateInputsInfoWithNodeConnections
  rw [List.map_eq_flatMap]
  apply foldlM_eq_events
  intro mapped hm inputsInfo
  obtain ⟨tensor, htensor⟩ := Option.isSome_iff_exists.mp (hall mapped hm)
  have htaken : takenBy metadata dependant mapped = (mapped.1, some tensor) := by
    simp [takenBy, hkind, hinfo, htensor, Except.toOption]
  rw [htensor, htaken, List.foldlM_cons]
  simp only [updateInputsInfoWithNodeConnection_eq, List.foldlM_nil, bind_pure]

theorem updateInputsInfoWithDependency_eq (hwalkable : Walkable definition) (hreadable : Readable definition metadata)
    {dependantName : String} {dependency : String × Aliases} (h : Connected definition dependantName dependency) :
    definition.updateInputsInfoWithDependency metadata dependantName inputsInfo dependency =
      ofMerge ((definition.dependencyEvents metadata dependantName dependency).foldlM (KeyedFold.updateAt keep) inputsInfo) := by
  obtain ⟨dependant, dependencyInfo, hdependant, hdependency, hentry⟩ := hwalkable dependantName dependency h
  unfold updateInputsInfoWithDependency dependencyEvents
  simp only [hdependency, hdependant]
  by_cases hkind : dependencyInfo.kind = .ENTRY
  · rw [if_neg (not_not.mpr hkind), if_pos hkind]
    obtain ⟨_, hname⟩ := findNodeByName_mem hdependant
    have htakes : dependant.kind = .DL ∨ dependant.kind = .CUSTOM → Takes definition dependant dependency := by
      intro hnode
      exact ⟨hnode, hname ▸ hdependant, hname ▸ h, dependencyInfo, hdependency, hkind⟩
    have hnode : dependant.kind = .DL ∨ dependant.kind = .CUSTOM → updateInputsInfoWithDependant metadata inputsInfo
        dependant dependency.2 = ofMerge ((dependency.2.map (takenBy metadata dependant)).foldlM (KeyedFold.updateAt keep)
          inputsInfo) := by
      intro hnode
      obtain ⟨info, hinfo, hall⟩ := hreadable dependant dependency (htakes hnode)
      have hexit : dependant.kind ≠ .EXIT := by
        rcases hnode with hnode | hnode <;> simp [hnode]
      rw [← updateInputsInfoWithNodeConnections_eq hexit hinfo hall]
      unfold updateInputsInfoWithDependant
      rcases hnode with hnode | hnode <;> simp only [hnode, hinfo]
    cases hdependantKind : dependant.kind with
    | ENTRY => exact absurd hdependantKind hentry
    | DL => exact hnode (.inl hdependantKind)
    | CUSTOM => exact hnode (.inr hdependantKind)
    | EXIT =>
      have htaken : takenBy metadata dependant = fun mapped => (mapped.1, none) := by
        funext mapped
        simp [takenBy, hdependantKind]
      unfold updateInputsInfoWithDependant
      rw [htaken, foldl_insertUnspecified, hdependantKind]
  · rw [if_pos hkind, if_neg hkind]
    rfl

/-- The loops over the maps do what the events do. -/
theorem connections_eq (hwalkable : Walkable definition) (hreadable : Readable definition metadata) :
    definition.connections.foldlM (fun inputsInfo connection =>
      connection.2.foldlM (definition.updateInputsInfoWithDependency metadata connection.1) inputsInfo) inputsInfo =
      ofMerge ((definition.inputEvents metadata).foldlM (KeyedFold.updateAt keep) inputsInfo) := by
  apply foldlM_eq_events
  intro connection hconnection inputsInfo
  apply foldlM_eq_events
  intro dependency hdependency inputsInfo
  exact updateInputsInfoWithDependency_eq hwalkable hreadable ⟨connection, hconnection, rfl, hdependency⟩

/-- What was found in a map was found in one that could be read. -/
theorem ok_of_bind {ε α β : Type} {read : Except ε (α → Option β)} {key : α} {value : β}
    (h : read.toOption.bind (· key) = some value) : ∃ found, read = .ok found ∧ found key = some value := by
  cases read with
  | error => cases h
  | ok found => exact ⟨found, rfl, h⟩

theorem feeds_of_event (hwalkable : Walkable definition) {name : String} {tensor : TensorInfo}
    (h : (name, some tensor) ∈ definition.inputEvents metadata) : Feeds definition metadata name tensor := by
  obtain ⟨dependantName, dependency, hconnected, hevent⟩ := mem_inputEvents.mp h
  obtain ⟨dependant, dependencyInfo, hdependant, hdependency, hentry⟩ := hwalkable _ _ hconnected
  obtain ⟨_, rfl⟩ := findNodeByName_mem hdependant
  unfold dependencyEvents at hevent
  simp only [hdependency, hdependant] at hevent
  split at hevent
  next hkind =>
    obtain ⟨⟨mappedName, realName⟩, hmapped, htaken⟩ := List.mem_map.mp hevent
    obtain ⟨rfl, htensor⟩ := Prod.mk.inj htaken
    simp only at htensor
    split at htensor
    next => cases htensor
    next hexit =>
      have hnode : dependant.kind = .DL ∨ dependant.kind = .CUSTOM := by
        cases hdependantKind : dependant.kind with
        | ENTRY => exact absurd hdependantKind hentry
        | DL => exact .inl rfl
        | CUSTOM => exact .inr rfl
        | EXIT => exact absurd hdependantKind hexit
      obtain ⟨info, hok, hreal⟩ := ok_of_bind htensor
      exact ⟨dependant, dependency, info, realName, ⟨hnode, hdependant, hconnected, dependencyInfo, hdependency, hkind⟩,
        hmapped, hok, hreal⟩
  next => exact absurd hevent List.not_mem_nil

theorem Feeds.event {name : String} {tensor : TensorInfo} (h : Feeds definition metadata name tensor) :
    (name, some tensor) ∈ definition.inputEvents metadata := by
  obtain ⟨dependant, dependency, info, realName, htakes, hmapped, hinfo, htensor⟩ := h
  obtain ⟨entry, hentry, hkind⟩ := htakes.entry
  have hexit : dependant.kind ≠ .EXIT := by
    rcases htakes.kind with hnode | hnode <;> simp [hnode]
  refine mem_inputEvents.mpr ⟨dependant.nodeName, dependency, htakes.connected, ?_⟩
  unfold dependencyEvents
  simp only [hentry, htakes.found, if_pos hkind]
  refine List.mem_map.mpr ⟨(name, realName), hmapped, ?_⟩
  simp [takenBy, hexit, hinfo, htensor, Except.toOption]

end Events

section Order

variable {definition definition' : PipelineDefinition} {metadata : InputsMetadata} {inputs : NodeInputs}
  {node : NodeInfo → Except DefinitionStatus Unit} {connection : NodeInfo → NodeInfo → Aliases → Except DefinitionStatus Unit}

/-- The same definition, with its maps walked through in another order. -/
structure Reordered (definition definition' : PipelineDefinition) : Prop where
  nodeInfos : definition'.nodeInfos = definition.nodeInfos
  connections : ∃ reorder : String × List (String × Aliases) → List (String × Aliases),
    (∀ connection ∈ definition.connections, (reorder connection).Perm connection.2) ∧
    definition'.connections.Perm (definition.connections.map fun connection => (connection.1, reorder connection))

theorem Reordered.findNodeByName (h : Reordered definition definition') (name : String) :
    definition'.findNodeByName name = definition.findNodeByName name := by
  unfold PipelineDefinition.findNodeByName
  rw [h.nodeInfos]

theorem Reordered.connected (h : Reordered definition definition') {dependantName : String} {dependency : String × Aliases} :
    Connected definition' dependantName dependency ↔ Connected definition dependantName dependency := by
  obtain ⟨reorder, hreorder, hperm⟩ := h.connections
  constructor
  · intro hconnected
    obtain ⟨connection', hm', rfl, hdependency⟩ := hconnected
    obtain ⟨connection, hm, rfl⟩ := List.mem_map.mp (hperm.mem_iff.mp hm')
    exact ⟨connection, hm, rfl, (hreorder connection hm).mem_iff.mp hdependency⟩
  · intro hconnected
    obtain ⟨connection, hm, rfl, hdependency⟩ := hconnected
    exact ⟨(connection.1, reorder connection), hperm.mem_iff.mpr (List.mem_map.mpr ⟨connection, hm, rfl⟩), rfl,
      (hreorder connection hm).mem_iff.mpr hdependency⟩

theorem Reordered.inputEvents (h : Reordered definition definition') (event : String × Option TensorInfo) :
    event ∈ definition'.inputEvents metadata ↔ event ∈ definition.inputEvents metadata := by
  have hevents : ∀ dependantName dependency, definition'.dependencyEvents metadata dependantName dependency =
      definition.dependencyEvents metadata dependantName dependency := by
    intro dependantName dependency
    unfold dependencyEvents
    rw [h.findNodeByName, h.findNodeByName]
  simp only [mem_inputEvents, h.connected, hevents]

theorem Reordered.walkable (h : Reordered definition definition') (hwalkable : Walkable definition) :
    Walkable definition' := by
  intro dependantName dependency hconnected
  simp only [h.findNodeByName]
  exact hwalkable dependantName dependency (h.connected.mp hconnected)

theorem Reordered.takes (h : Reordered definition definition') {dependant : NodeInfo} {dependency : String × Aliases} :
    Takes definition' dependant dependency ↔ Takes definition dependant dependency := by
  constructor
  · intro htakes
    have hentry := htakes.entry
    rw [h.findNodeByName] at hentry
    exact ⟨htakes.kind, h.findNodeByName _ ▸ htakes.found, h.connected.mp htakes.connected, hentry⟩
  · intro htakes
    have hentry := htakes.entry
    rw [← h.findNodeByName] at hentry
    exact ⟨htakes.kind, (h.findNodeByName _).trans htakes.found, h.connected.mpr htakes.connected, hentry⟩

theorem Reordered.readable (h : Reordered definition definition') (hreadable : Readable definition metadata) :
    Readable definition' metadata :=
  fun dependant dependency htakes => hreadable dependant dependency (h.takes.mp htakes)

theorem Reordered.feeds (h : Reordered definition definition') {name : String} {tensor : TensorInfo} :
    Feeds definition' metadata name tensor ↔ Feeds definition metadata name tensor := by
  simp only [Feeds, h.takes]

theorem Reordered.entryDemultiplyCount (h : Reordered definition definition') :
    definition'.entryDemultiplyCount = definition.entryDemultiplyCount := by
  unfold PipelineDefinition.entryDemultiplyCount
  rw [h.nodeInfos]

theorem lookup_of_mem {connections : List (String × List (String × Aliases))} (hnodup : (connections.map Prod.fst).Nodup)
    {connection : String × List (String × Aliases)} (hm : connection ∈ connections) :
    connections.lookup connection.1 = some connection.2 := by
  induction connections with
  | nil => exact absurd hm List.not_mem_nil
  | cons first connections ih =>
    obtain ⟨hfirst, hrest⟩ := List.nodup_cons.mp (List.map_cons ▸ hnodup)
    obtain ⟨name, dependencies⟩ := first
    rcases List.mem_cons.mp hm with rfl | hm
    · simp
    · have hne : connection.1 ≠ name := by
        intro heq
        exact hfirst (heq ▸ List.mem_map.mpr ⟨connection, hm, rfl⟩)
      rw [List.lookup_cons, beq_false_of_ne hne]
      exact ih hrest hm

theorem Connected.connectedTo {dependantName : String} {dependency : String × Aliases}
    (h : Connected definition dependantName dependency) : dependency.1 ∈ definition.connectedTo dependantName := by
  obtain ⟨connection, hm, rfl, hdependency⟩ := h
  unfold PipelineDefinition.connectedTo
  rw [lookup_of_mem definition.dependants_nodup hm]
  exact List.mem_map.mpr ⟨dependency, hdependency, rfl⟩

/-- A definition that has passed its validation is walked through without a slip. -/
theorem Validated.walkable (h : Validated definition (inputs.checks definition node connection))
    (hcreated : Pipeline.Created definition) : Walkable definition := by
  intro dependantName dependency hconnected
  obtain ⟨_, _, _, _, hchecked, _, _, _, hlevelled⟩ := h.levelled h.fed
  have hto := hconnected.connectedTo
  obtain ⟨connection, hm, rfl, _⟩ := hconnected
  obtain ⟨dependant, hdependant⟩ := Option.isSome_iff_exists.mp (hcreated connection hm)
  obtain ⟨hin, hname⟩ := findNodeByName_mem hdependant
  rw [← hname] at hto
  obtain ⟨dependencyInfo, hdependency, _⟩ := hchecked.dependencies dependant hin _ hto
  refine ⟨dependant, dependencyInfo, hdependant, hdependency, ?_⟩
  intro hentry
  rw [(hlevelled.entry dependant hin hentry).2.2] at hto
  exact absurd hto List.not_mem_nil

/-- The tensors that the inputs feed say something, and in their layouts no letter stands for two dimensions. -/
structure Labelled (definition : PipelineDefinition) (metadata : InputsMetadata) : Prop where
  lettered : ∀ name tensor, Feeds definition metadata name tensor → Lettered tensor.layout.text
  specified : ∀ name tensor, Feeds definition metadata name tensor → (tensor.aliased name).isTensorUnspecified = false

theorem Labelled.input (h : Labelled definition metadata) {name : String} {tensor : TensorInfo}
    (hfeeds : Feeds definition metadata name tensor) : InputTensor name (tensor.aliased name) where
  named := rfl
  mapped := by simp [TensorInfo.getMappedName, TensorInfo.aliased]
  specified := h.specified name tensor hfeeds
  lettered := h.lettered name tensor hfeeds

theorem Labelled.foldlM_keep (h : Labelled definition metadata) (hwalkable : Walkable definition) (name : String) :
    match (KeyedFold.eventsOf (definition.inputEvents metadata) name).foldlM (keep name) none with
    | some kept => Kept name (KeyedFold.eventsOf (definition.inputEvents metadata) name) kept
    | none => PartialMeet.Conflict writeSpec specAllowed (specs (KeyedFold.eventsOf (definition.inputEvents metadata) name)) :=
  PipelineDefinition.foldlM_keep fun _ hm => h.input (feeds_of_event hwalkable (KeyedFold.mem_eventsOf.mp hm))

/-- The tensors of the inputs, before the entry demultiplexes. -/
def gatherInputs (definition : PipelineDefinition) (metadata : InputsMetadata) : Option InputsInfo :=
  (definition.inputEvents metadata).foldlM (KeyedFold.updateAt keep) fun _ => none

/-- The entry demultiplexes the inputs. -/
def demultiplied (definition : PipelineDefinition) (tensor : TensorInfo) : TensorInfo :=
  match definition.entryDemultiplyCount with
  | none => tensor
  | some demultiplyCount => applyDemultiplexerShapeForTensor tensor demultiplyCount

theorem updateInputsInfo_eq (hwalkable : Walkable definition) (hreadable : Readable definition metadata) :
    definition.updateInputsInfo metadata =
      ofMerge ((gatherInputs definition metadata).map fun inputsInfo name => (inputsInfo name).map definition.demultiplied) := by
  unfold updateInputsInfo gatherInputs
  rw [connections_eq hwalkable hreadable]
  cases (definition.inputEvents metadata).foldlM (KeyedFold.updateAt keep) fun _ => none with
  | none => rfl
  | some inputsInfo =>
    unfold demultiplied
    cases definition.entryDemultiplyCount with
    | none => simp [ofMerge]
    | some demultiplyCount => rfl

theorem Labelled.gatherInputs_some (h : Labelled definition metadata) (hwalkable : Walkable definition)
    {inputsInfo : InputsInfo} (hgather : gatherInputs definition metadata = some inputsInfo) (name : String) :
    Kept name (KeyedFold.eventsOf (definition.inputEvents metadata) name) (inputsInfo name) := by
  have hkept := h.foldlM_keep hwalkable name
  rwa [KeyedFold.foldlM_updateAt.mp hgather name] at hkept

theorem Labelled.gatherInputs_none (h : Labelled definition metadata) (hwalkable : Walkable definition)
    (hgather : gatherInputs definition metadata = none) :
    ∃ name, PartialMeet.Conflict writeSpec specAllowed (specs (KeyedFold.eventsOf (definition.inputEvents metadata) name)) := by
  obtain ⟨name, hname⟩ := KeyedFold.foldlM_updateAt_none hgather
  have hconflict := h.foldlM_keep hwalkable name
  rw [hname] at hconflict
  exact ⟨name, hconflict⟩

theorem Reordered.eventsOf (h : Reordered definition definition') (name : String) (event : Option TensorInfo) :
    event ∈ KeyedFold.eventsOf (definition.inputEvents metadata) name ↔
      event ∈ KeyedFold.eventsOf (definition'.inputEvents metadata) name := by
  rw [KeyedFold.mem_eventsOf, KeyedFold.mem_eventsOf, h.inputEvents]

theorem Reordered.labelled (h : Reordered definition definition') (hlabelled : Labelled definition metadata) :
    Labelled definition' metadata where
  lettered := fun name tensor hfeeds => hlabelled.lettered name tensor (h.feeds.mp hfeeds)
  specified := fun name tensor hfeeds => hlabelled.specified name tensor (h.feeds.mp hfeeds)

/-- The batch of an input stands at one place, whatever node the input feeds. -/
def SameBatch (definition : PipelineDefinition) (metadata : InputsMetadata) (name : String) : Prop :=
  ∀ tensor tensor', Feeds definition metadata name tensor → Feeds definition metadata name tensor' →
    tensor.layout.batchIndex = tensor'.layout.batchIndex

/-- Two tensors of an input that come of the same events. -/
theorem Kept.batchIndex_unique {name : String} {events events' : List (Option TensorInfo)} {kept kept' : Option TensorInfo}
    (h : Kept name events kept) (h' : Kept name events' kept') (hsame : ∀ event, event ∈ events ↔ event ∈ events')
    (hbatch : ∀ tensor tensor', some tensor ∈ events → some tensor' ∈ events →
      tensor.layout.batchIndex = tensor'.layout.batchIndex) :
    kept.map (·.layout.batchIndex) = kept'.map (·.layout.batchIndex) := by
  have hunique := h.unique h' hsame
  cases h with
  | nothing =>
    rw [Option.map_none] at hunique
    rw [Option.map_eq_none_iff.mp hunique.symm]
  | unspecified hne hnone =>
    cases h' with
    | nothing => cases hunique
    | unspecified => rfl
    | tensor _ _ hfed =>
      obtain ⟨other, hother, _⟩ := hfed
      exact absurd ((hsame _).mpr hother) (hnone other)
  | tensor _ _ hfed =>
    obtain ⟨other, hother, heq⟩ := hfed
    cases h' with
    | nothing => cases hunique
    | unspecified _ hnone => exact absurd ((hsame _).mp hother) (hnone other)
    | tensor _ _ hfed' =>
      obtain ⟨other', hother', heq'⟩ := hfed'
      rw [Option.map_some, Option.map_some, heq, heq', hbatch other other' hother ((hsame _).mpr hother')]

/-- The tensors that the inputs have come out the same in both orders, and so do the inputs that are ambiguous. -/
theorem Reordered.gatherInputs (h : Reordered definition definition') (hwalkable : Walkable definition)
    (hlabelled : Labelled definition metadata) :
    match gatherInputs definition metadata, gatherInputs definition' metadata with
    | some inputsInfo, some inputsInfo' => ∀ name,
      (inputsInfo name).map TensorInfo.spec = (inputsInfo' name).map TensorInfo.spec ∧
      (SameBatch definition metadata name →
        (inputsInfo name).map (·.layout.batchIndex) = (inputsInfo' name).map (·.layout.batchIndex))
    | none, none => True
    | _, _ => False := by
  have hwalkable' := h.walkable hwalkable
  have hlabelled' := h.labelled hlabelled
  cases hgather : PipelineDefinition.gatherInputs definition metadata with
  | none =>
    cases hgather' : PipelineDefinition.gatherInputs definition' metadata with
    | none => trivial
    | some inputsInfo' =>
      obtain ⟨name, hconflict⟩ := hlabelled.gatherInputs_none hwalkable hgather
      exact (hlabelled'.gatherInputs_some hwalkable' hgather' name).not_conflict
        (fun event => (h.eventsOf name event).symm) hconflict
  | some inputsInfo =>
    cases hgather' : PipelineDefinition.gatherInputs definition' metadata with
    | none =>
      obtain ⟨name, hconflict⟩ := hlabelled'.gatherInputs_none hwalkable' hgather'
      exact (hlabelled.gatherInputs_some hwalkable hgather name).not_conflict (h.eventsOf name) hconflict
    | some inputsInfo' =>
      intro name
      have hkept := hlabelled.gatherInputs_some hwalkable hgather name
      have hkept' := hlabelled'.gatherInputs_some hwalkable' hgather' name
      refine ⟨hkept.unique hkept' (h.eventsOf name), fun hbatch => ?_⟩
      apply hkept.batchIndex_unique hkept' (h.eventsOf name)
      intro tensor tensor' hm hm'
      exact hbatch tensor tensor' (feeds_of_event hwalkable (KeyedFold.mem_eventsOf.mp hm))
        (feeds_of_event hwalkable (KeyedFold.mem_eventsOf.mp hm'))

theorem applyDemultiplexerShapeForTensor_congr {tensor tensor' : TensorInfo} (demultiplyCount : Int)
    (h : tensor.spec = tensor'.spec) :
    (applyDemultiplexerShapeForTensor tensor demultiplyCount).spec =
      (applyDemultiplexerShapeForTensor tensor' demultiplyCount).spec ∧
    (applyDemultiplexerShapeForTensor tensor demultiplyCount).layout =
      (applyDemultiplexerShapeForTensor tensor' demultiplyCount).layout := by
  obtain ⟨hprecision, hrest⟩ := Prod.mk.inj h
  obtain ⟨hshape, htext⟩ := Prod.mk.inj hrest
  simp [applyDemultiplexerShapeForTensor, TensorInfo.createCopyWithDemultiplexerDimensionPrefix, TensorInfo.spec,
    hprecision, hshape, htext]

theorem demultiplied_same {name : String} {kept kept' : Option TensorInfo}
    (hspec : kept.map TensorInfo.spec = kept'.map TensorInfo.spec)
    (hbatch : SameBatch definition metadata name → kept.map (·.layout.batchIndex) = kept'.map (·.layout.batchIndex)) :
    (kept.map definition.demultiplied).map TensorInfo.spec = (kept'.map definition.demultiplied).map TensorInfo.spec ∧
    (definition.entryDemultiplyCount.isSome ∨ SameBatch definition metadata name →
      (kept.map definition.demultiplied).map (·.layout.batchIndex) =
        (kept'.map definition.demultiplied).map (·.layout.batchIndex)) := by
  unfold demultiplied
  cases definition.entryDemultiplyCount with
  | none =>
    simp only [Option.map_id_fun', id_eq]
    refine ⟨hspec, fun hsame => hbatch ?_⟩
    simpa using hsame
  | some demultiplyCount =>
    -- the tensor with a dimension more is made of what both orders share
    cases kept with
    | none =>
      rw [Option.map_none] at hspec
      rw [Option.map_eq_none_iff.mp hspec.symm]
      exact ⟨rfl, fun _ => rfl⟩
    | some tensor =>
      rw [Option.map_some] at hspec
      obtain ⟨tensor', rfl, hsame⟩ := Option.map_eq_some_iff.mp hspec.symm
      obtain ⟨hspec', hlayout⟩ := applyDemultiplexerShapeForTensor_congr demultiplyCount hsame
      exact ⟨congrArg some hspec'.symm, fun _ => congrArg (fun layout : Layout => some layout.batchIndex) hlayout.symm⟩

/-- What is the same of the inputs in both orders: the status and the precision, shape and layout text of each input,
and where its batch is if the batches of its nodes agree or the entry demultiplexes. -/
def SameInputs (definition : PipelineDefinition) (metadata : InputsMetadata) :
    Except InputsStatus InputsInfo → Except InputsStatus InputsInfo → Prop
  | .ok inputsInfo, .ok inputsInfo' => ∀ name,
    (inputsInfo name).map TensorInfo.spec = (inputsInfo' name).map TensorInfo.spec ∧
    (definition.entryDemultiplyCount.isSome ∨ SameBatch definition metadata name →
      (inputsInfo name).map (·.layout.batchIndex) = (inputsInfo' name).map (·.layout.batchIndex))
  | .error status, .error status' => status = status'
  | _, _ => False

theorem Reordered.updateInputsInfo (h : Reordered definition definition') (hwalkable : Walkable definition)
    (hreadable : Readable definition metadata) (hlabelled : Labelled definition metadata) :
    SameInputs definition metadata (definition.updateInputsInfo metadata) (definition'.updateInputsInfo metadata) := by
  rw [updateInputsInfo_eq hwalkable hreadable, updateInputsInfo_eq (h.walkable hwalkable) (h.readable hreadable)]
  have hgather := h.gatherInputs hwalkable hlabelled
  have hdemultiplied : definition'.demultiplied = definition.demultiplied := by
    funext tensor
    unfold demultiplied
    rw [h.entryDemultiplyCount]
  rw [hdemultiplied]
  cases hfirst : PipelineDefinition.gatherInputs definition metadata with
  | none =>
    cases hsecond : PipelineDefinition.gatherInputs definition' metadata with
    | none => rfl
    | some => simp [hfirst, hsecond] at hgather
  | some inputsInfo =>
    cases hsecond : PipelineDefinition.gatherInputs definition' metadata with
    | none => simp [hfirst, hsecond] at hgather
    | some inputsInfo' =>
      rw [hfirst, hsecond] at hgather
      intro name
      obtain ⟨hspec, hbatch⟩ := hgather name
      exact demultiplied_same hspec hbatch

/-- The shape of an input allows what the nodes allow that it feeds, once for each part when the entry demultiplexes. -/
theorem updateInputsInfo_match (hwalkable : Walkable definition) (hreadable : Readable definition metadata)
    (hlabelled : Labelled definition metadata) {inputsInfo : InputsInfo} {name : String} {tensor : TensorInfo}
    (hok : definition.updateInputsInfo metadata = .ok inputsInfo) (hfound : inputsInfo name = some tensor)
    (hfed : ∃ fed, Feeds definition metadata name fed) (values : List Int) :
    match definition.entryDemultiplyCount with
    | none => tensor.shape.match values = true ↔ ∀ fed, Feeds definition metadata name fed → fed.shape.match values = true
    | some demultiplyCount => ∀ value, tensor.shape.match (value :: values) = true ↔
      (demultiplyDimension demultiplyCount).match value = true ∧
        ∀ fed, Feeds definition metadata name fed → fed.shape.match values = true := by
  rw [updateInputsInfo_eq hwalkable hreadable] at hok
  cases hgather : PipelineDefinition.gatherInputs definition metadata with
  | none => simp [hgather, ofMerge] at hok
  | some gathered =>
    rw [hgather] at hok
    have hinfo : (fun name => (gathered name).map definition.demultiplied) = inputsInfo := Except.ok.inj hok
    rw [← hinfo] at hfound
    obtain ⟨kept, hkept, rfl⟩ := Option.map_eq_some_iff.mp hfound
    obtain ⟨fed, hfed⟩ := hfed
    have hevent : ∀ fed, Feeds definition metadata name fed ↔
        some fed ∈ KeyedFold.eventsOf (definition.inputEvents metadata) name := by
      intro fed
      rw [KeyedFold.mem_eventsOf]
      exact ⟨Feeds.event, feeds_of_event hwalkable⟩
    have hgathered := hlabelled.gatherInputs_some hwalkable hgather name
    rw [hkept] at hgathered
    have hmatch := hgathered.match_iff ((hevent fed).mp hfed) values
    simp only [← hevent] at hmatch
    unfold demultiplied
    cases definition.entryDemultiplyCount with
    | none => exact hmatch
    | some demultiplyCount =>
      intro value
      rw [← hmatch]
      exact Bool.and_eq_true_iff

/-- The inputs of a definition that has passed its validation do not depend on the order of its maps, and each allows
what the nodes allow that it feeds. -/
theorem Validated.inputsInfo_reordered (hvalidated : Validated definition (inputs.checks definition node connection))
    (hcreated : Pipeline.Created definition) (hreadable : Readable definition metadata)
    (hlabelled : Labelled definition metadata) (hreordered : Reordered definition definition') :
    SameInputs definition metadata (definition.updateInputsInfo metadata) (definition'.updateInputsInfo metadata) ∧
    ∀ inputsInfo name tensor, definition.updateInputsInfo metadata = .ok inputsInfo → inputsInfo name = some tensor →
      (∃ fed, Feeds definition metadata name fed) → ∀ values,
      match definition.entryDemultiplyCount with
      | none => tensor.shape.match values = true ↔
        ∀ fed, Feeds definition metadata name fed → fed.shape.match values = true
      | some demultiplyCount => ∀ value, tensor.shape.match (value :: values) = true ↔
        (demultiplyDimension demultiplyCount).match value = true ∧
          ∀ fed, Feeds definition metadata name fed → fed.shape.match values = true := by
  have hwalkable := hvalidated.walkable hcreated
  refine ⟨hreordered.updateInputsInfo hwalkable hreadable hlabelled, ?_⟩
  intro inputsInfo name tensor hok hfound hfed values
  exact updateInputsInfo_match hwalkable hreadable hlabelled hok hfound hfed values

end Order

section Shared

/-- Two models that take the same image, for a request that is demultiplexed or not. -/
def shared (demultiplyCount : Option Int) (gathered : Finset String) : PipelineDefinition where
  nodeInfos := [⟨.ENTRY, "request", demultiplyCount, ∅⟩, ⟨.DL, "first", none, ∅⟩, ⟨.DL, "second", none, ∅⟩,
    ⟨.EXIT, "response", none, gathered⟩]
  connections := [("first", [("request", [("image", "image")])]), ("second", [("request", [("image", "image")])]),
    ("response", [("first", [("label", "label")]), ("second", [("score", "score")])])]
  dependants_nodup := by decide
  dependencies_nodup := by decide

/-- The second model comes first. -/
def sharedSwapped : PipelineDefinition where
  nodeInfos := (shared none ∅).nodeInfos
  connections := [("second", [("request", [("image", "image")])]), ("first", [("request", [("image", "image")])]),
    ("response", [("first", [("label", "label")]), ("second", [("score", "score")])])]
  dependants_nodup := by decide
  dependencies_nodup := by decide

def sharedInputs : NodeInputs where
  inputsInfo := fun _ => {"image"}
  nonempty := fun _ _ => Finset.singleton_nonempty _

/-- The models take images of a shape, with a layout each. -/
def imageMetadata (layout layout' : List Char) : InputsMetadata := fun node => .ok fun name =>
  some ⟨name, "", .FP32, [.static 1, .static 3], .ofText (if node.nodeName = "first" then layout else layout'), false⟩

theorem shared_validated :
    Validated (shared none ∅) (sharedInputs.checks (shared none ∅) Pipeline.acceptsAll.node Pipeline.acceptsAll.connection) where
  nodes := by decide
  cycles := Loop.exits_of_iterate (show Loop.iterate _ 20 _ = _ by decide)
  order := Loop.exits_of_iterate (show Loop.iterate _ 20 _ = _ by decide)

theorem shared_demultiplexed_validated : Validated (shared (some 2) {"request"})
    (sharedInputs.checks (shared (some 2) {"request"}) Pipeline.acceptsAll.node Pipeline.acceptsAll.connection) where
  nodes := by decide
  cycles := Loop.exits_of_iterate (show Loop.iterate _ 20 _ = _ by decide)
  order := Loop.exits_of_iterate (show Loop.iterate _ 20 _ = _ by decide)

theorem shared_reordered : Reordered (shared none ∅) sharedSwapped where
  nodeInfos := rfl
  connections := ⟨Prod.snd, fun _ _ => .refl _, .swap _ _ _⟩

theorem shared_readable (layout layout' : List Char) : Readable (shared none ∅) (imageMetadata layout layout') :=
  fun _ _ _ => ⟨_, rfl, fun _ _ => rfl⟩

theorem imageMetadata_feeds {definition : PipelineDefinition} {layout layout' : List Char} {name : String}
    {tensor : TensorInfo} (h : Feeds definition (imageMetadata layout layout') name tensor) :
    tensor.precision = .FP32 ∧ (tensor.layout.text = layout ∨ tensor.layout.text = layout') := by
  obtain ⟨dependant, dependency, info, realName, _, _, hinfo, htensor⟩ := h
  rw [← Except.ok.inj hinfo] at htensor
  rw [← Option.some.inj htensor]
  refine ⟨rfl, ?_⟩
  by_cases hfirst : dependant.nodeName = "first"
  · exact .inl (by simp [hfirst, Layout.ofText])
  · exact .inr (by simp [hfirst, Layout.ofText])

theorem shared_labelled {layout layout' : List Char} (h : Lettered layout) (h' : Lettered layout') :
    Labelled (shared none ∅) (imageMetadata layout layout') where
  lettered := by
    intro name tensor hfeeds
    rcases (imageMetadata_feeds hfeeds).2 with htext | htext
    · rwa [htext]
    · rwa [htext]
  specified := by
    intro name tensor hfeeds
    simp [TensorInfo.isTensorUnspecified, TensorInfo.aliased, (imageMetadata_feeds hfeeds).1]

/-- The batch of the image is that of the model that is looked at first, a letter that stands for two dimensions is
merged in one order only, and the image of a demultiplexed request has a dimension more than those of the models. -/
theorem inputsInfo_reordered_fails :
    Validated (shared none ∅) (sharedInputs.checks (shared none ∅) Pipeline.acceptsAll.node Pipeline.acceptsAll.connection) ∧
    Reordered (shared none ∅) sharedSwapped ∧
    (((shared none ∅).updateInputsInfo (imageMetadata ['N', '.', '.', '.'] ['.', '.', '.'])).toOption.bind (· "image")).map
      (·.layout) = some ⟨['N', '?'], some 0⟩ ∧
    ((sharedSwapped.updateInputsInfo (imageMetadata ['N', '.', '.', '.'] ['.', '.', '.'])).toOption.bind (· "image")).map
      (·.layout) = some ⟨['N', '?'], none⟩ ∧
    ((shared none ∅).updateInputsInfo (imageMetadata ['D', 'D'] ['D', '?'])).toOption.isSome = true ∧
    (sharedSwapped.updateInputsInfo (imageMetadata ['D', 'D'] ['D', '?'])).toOption.isSome = false ∧
    Validated (shared (some 2) {"request"})
      (sharedInputs.checks (shared (some 2) {"request"}) Pipeline.acceptsAll.node Pipeline.acceptsAll.connection) ∧
    (((shared (some 2) {"request"}).updateInputsInfo (imageMetadata ['N', 'C'] ['N', 'C'])).toOption.bind (· "image")).map
      (fun tensor => (tensor.shape.match [1, 3], tensor.shape.match [2, 1, 3])) = some (false, true) ∧
    (((imageMetadata ['N', 'C'] ['N', 'C']) ⟨.DL, "first", none, ∅⟩).toOption.bind (· "image")).map
      (·.shape.match [1, 3]) = some true := by
  refine ⟨shared_validated, shared_reordered, ?_, ?_, ?_, ?_, shared_demultiplexed_validated, ?_, ?_⟩
  · decide
  · decide
  · decide
  · decide
  · decide
  · decide

/-- Two orders in which the two models take the image. -/
theorem inputsInfo_reordered_shared :
    SameInputs (shared none ∅) (imageMetadata ['N', '.', '.', '.'] ['N', 'C'])
      ((shared none ∅).updateInputsInfo (imageMetadata ['N', '.', '.', '.'] ['N', 'C']))
      (sharedSwapped.updateInputsInfo (imageMetadata ['N', '.', '.', '.'] ['N', 'C'])) ∧
    ∃ inputsInfo tensor, (shared none ∅).updateInputsInfo (imageMetadata ['N', '.', '.', '.'] ['N', 'C']) = .ok inputsInfo ∧
      inputsInfo "image" = some tensor ∧ tensor.layout.text = ['N', 'C'] ∧ ∀ values, tensor.shape.match values = true ↔
        ∀ fed, Feeds (shared none ∅) (imageMetadata ['N', '.', '.', '.'] ['N', 'C']) "image" fed →
          fed.shape.match values = true := by
  obtain ⟨hsame, hmatch⟩ := shared_validated.inputsInfo_reordered (by unfold Pipeline.Created; decide)
    (shared_readable ['N', '.', '.', '.'] ['N', 'C'])
    (shared_labelled (by unfold Lettered; decide) (by unfold Lettered; decide)) shared_reordered
  refine ⟨hsame, ?_⟩
  have himage : ((shared none ∅).updateInputsInfo (imageMetadata ['N', '.', '.', '.'] ['N', 'C'])).toOption.bind (· "image") =
      some ⟨"image", "image", .FP32, [.static 1, .static 3], ⟨['N', 'C'], some 0⟩, false⟩ := by decide
  obtain ⟨inputsInfo, hok, hfound⟩ := ok_of_bind himage
  refine ⟨inputsInfo, _, hok, hfound, rfl, ?_⟩
  intro values
  have htakes : Takes (shared none ∅) ⟨.DL, "first", none, ∅⟩ ("request", [("image", "image")]) :=
    ⟨.inl rfl, by decide, ⟨_, List.mem_cons_self, rfl, List.mem_cons_self⟩, ⟨.ENTRY, "request", none, ∅⟩, by decide, rfl⟩
  have hcount : (shared none ∅).entryDemultiplyCount = none := by decide
  have hvalues := hmatch inputsInfo "image" _ hok hfound ⟨_, _, _, _, "image", htakes, List.mem_cons_self, rfl, rfl⟩ values
  rwa [hcount] at hvalues

end Shared

end ModelServer.PipelineDefinition
