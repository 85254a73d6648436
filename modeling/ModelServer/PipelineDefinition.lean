import Mathlib.Data.Finset.Max
import Mathlib.Data.String.Basic
import ModelServer.Loop

namespace ModelServer

inductive NodeKind
  | ENTRY
  | DL
  | CUSTOM
  | EXIT
deriving DecidableEq

structure NodeInfo where
  kind : NodeKind
  nodeName : String
  demultiplyCount : Option Int := none
  gatherFromNode : Finset String := ∅
deriving DecidableEq

/-- The statuses of a definition that fails its validation; `metadata` stands for those that the models and the
libraries of its nodes decide. -/
inductive DefinitionStatus
  | PIPELINE_MISSING_ENTRY_OR_EXIT
  | PIPELINE_MULTIPLE_ENTRY_NODES
  | PIPELINE_MULTIPLE_EXIT_NODES
  | NOT_IMPLEMENTED
  | PIPELINE_NODE_NAME_DUPLICATE
  | PIPELINE_NODE_GATHER_FROM_NOT_EXISTING_NODE
  | PIPELINE_NODE_GATHER_FROM_NOT_DEMULTIPLEXER
  | UNKNOWN_ERROR
  | PIPELINE_NODE_REFERING_TO_MISSING_NODE
  | PIPELINE_EXIT_USED_AS_NODE_DEPENDENCY
  | PIPELINE_CYCLE_FOUND
  | PIPELINE_CONTAINS_UNCONNECTED_NODES
  | PIPELINE_WRONG_DEMULTIPLEXER_GATHER_NODES_ORDER
  | metadata (code : String)
deriving DecidableEq

abbrev Aliases := List (String × String)

/-- The nodes of a pipeline and the dependencies of each, in the order in which the maps are walked through. -/
structure PipelineDefinition where
  nodeInfos : List NodeInfo
  connections : List (String × List (String × Aliases))
  dependants_nodup : (connections.map Prod.fst).Nodup
  dependencies_nodup : ∀ connection ∈ connections, (connection.2.map Prod.fst).Nodup

/-- What the models and the libraries of the nodes say of a node, of its connection to a dependency and of the inputs
that have no data source. -/
structure MetadataChecks where
  node : NodeInfo → Except DefinitionStatus Unit
  connection : NodeInfo → NodeInfo → Aliases → Except DefinitionStatus Unit
  inputs : NodeInfo → Except DefinitionStatus Unit

namespace PipelineDefinition

def findNodeByName (definition : PipelineDefinition) (name : String) : Option NodeInfo :=
  definition.nodeInfos.find? (·.nodeName = name)

/-- The dependencies of a node. -/
def connectedTo (definition : PipelineDefinition) (nodeName : String) : List String :=
  ((definition.connections.lookup nodeName).getD []).map Prod.fst

section NodeValidator

variable (definition : PipelineDefinition) (checks : MetadataChecks)

/-- The set is walked through in the order of its names. -/
def validateGatherNode (dependantNodeInfo : NodeInfo) : Except DefinitionStatus Unit :=
  let refused := dependantNodeInfo.gatherFromNode.filter fun gather =>
    (definition.findNodeByName gather).bind (·.demultiplyCount) = none
  if h : refused.Nonempty then
    if definition.findNodeByName (refused.min' h) = none then .error .PIPELINE_NODE_GATHER_FROM_NOT_EXISTING_NODE
    else .error .PIPELINE_NODE_GATHER_FROM_NOT_DEMULTIPLEXER
  else .ok ()

def getDependencyNodeInfo (dependencyNodeName : String) : Except DefinitionStatus NodeInfo :=
  match definition.findNodeByName dependencyNodeName with
  | none => .error .PIPELINE_NODE_REFERING_TO_MISSING_NODE
  | some dependencyNodeInfo =>
    if dependencyNodeInfo.kind = .EXIT then .error .PIPELINE_EXIT_USED_AS_NODE_DEPENDENCY
    else .ok dependencyNodeInfo

/-- The dependencies of a node, one after the other. -/
def validateConnections (dependantNodeInfo : NodeInfo) : List (String × Aliases) → Except DefinitionStatus Unit
  | [] => .ok ()
  | (dependencyNodeName, mapping) :: connections =>
    if mapping.isEmpty then .error .UNKNOWN_ERROR
    else match definition.getDependencyNodeInfo dependencyNodeName with
      | .error status => .error status
      | .ok dependencyNodeInfo =>
        match checks.connection dependantNodeInfo dependencyNodeInfo mapping with
        | .error status => .error status
        | .ok () => validateConnections dependantNodeInfo connections

/-- `NodeValidator::validate`. -/
def validateNode (dependantNodeInfo : NodeInfo) : Except DefinitionStatus Unit :=
  match checks.node dependantNodeInfo with
  | .error status => .error status
  | .ok () =>
    match definition.validateGatherNode dependantNodeInfo with
    | .error status => .error status
    | .ok () =>
      match validateConnections definition checks dependantNodeInfo
          ((definition.connections.lookup dependantNodeInfo.nodeName).getD []) with
      | .error status => .error status
      | .ok () => checks.inputs dependantNodeInfo

/-- The nodes one after the other. -/
def validateEach : List NodeInfo → Except DefinitionStatus Unit
  | [] => .ok ()
  | node :: nodes =>
    if 1 < definition.nodeInfos.countP (·.nodeName = node.nodeName) then .error .PIPELINE_NODE_NAME_DUPLICATE
    else match definition.validateNode checks node with
      | .error status => .error status
      | .ok () => validateEach nodes

def validateNodes : Except DefinitionStatus Unit :=
  let entryNodeCount := definition.nodeInfos.countP (·.kind = .ENTRY)
  let exitNodeCount := definition.nodeInfos.countP (·.kind = .EXIT)
  let isAnyNodeDynamicDemultiplexer := definition.nodeInfos.any (·.demultiplyCount = some (-1))
  let demultiplexerCount := definition.nodeInfos.countP (·.demultiplyCount.isSome)
  if entryNodeCount = 0 then .error .PIPELINE_MISSING_ENTRY_OR_EXIT
  else if exitNodeCount = 0 then .error .PIPELINE_MISSING_ENTRY_OR_EXIT
  else if 1 < entryNodeCount then .error .PIPELINE_MULTIPLE_ENTRY_NODES
  else if 1 < exitNodeCount then .error .PIPELINE_MULTIPLE_EXIT_NODES
  else if isAnyNodeDynamicDemultiplexer && 1 < demultiplexerCount then .error .NOT_IMPLEMENTED
  else definition.validateEach checks definition.nodeInfos

end NodeValidator

section Cycles

/-- The search for cycles: the node it is at, the nodes it has seen and the way back, the last node first. -/
structure CycleSearch where
  nodeName : String
  visited : List String
  parentNodes : List String

/-- The first dependency that was not visited. -/
def CycleSearch.next (search : CycleSearch) : List String → Except DefinitionStatus (Option String)
  | [] => .ok none
  | node :: nodes =>
    if search.nodeName = node then .error .PIPELINE_CYCLE_FOUND
    else if node ∉ search.visited then .ok (some node)
    else if node ∈ search.parentNodes then .error .PIPELINE_CYCLE_FOUND
    else search.next nodes

def searchCycles (definition : PipelineDefinition) (search : CycleSearch) :
    CycleSearch ⊕ Except DefinitionStatus Unit :=
  match search.next (definition.connectedTo search.nodeName) with
  | .error status => .inr (.error status)
  | .ok (some node) => .inl {
      nodeName := node
      visited := node :: search.visited
      parentNodes := search.nodeName :: search.parentNodes }
  | .ok none =>
    match search.parentNodes with
    | [] =>
      if search.visited.length ≠ definition.nodeInfos.length then .inr (.error .PIPELINE_CONTAINS_UNCONNECTED_NODES)
      else .inr (.ok ())
    | parent :: parentNodes => .inl { search with
        nodeName := parent
        parentNodes := parentNodes }

def validateForCycles (definition : PipelineDefinition) (status : Except DefinitionStatus Unit) : Prop :=
  match definition.nodeInfos.find? (·.kind = .EXIT) with
  | none => status = .error .PIPELINE_MISSING_ENTRY_OR_EXIT
  | some exit => Loop.Exits definition.searchCycles ⟨exit.nodeName, [exit.nodeName], []⟩ status

end Cycles

section GatherOrder

/-- The demultiplexers that are to be met on the way back to the entry, the next set first. -/
abbrev DemultiplyStack := List (Finset String)

structure OrderSearch where
  nodesToCheck : List (String × DemultiplyStack)
  visitedNodes : List (String × DemultiplyStack)

/-- A demultiplexer has to be in the set that is to be met next. -/
def meetDemultiplexer (connectedNodeInfo : NodeInfo) (demultiplyStack : DemultiplyStack) :
    Except DefinitionStatus DemultiplyStack :=
  if connectedNodeInfo.demultiplyCount.isSome then
    match demultiplyStack with
    | [] => .error .PIPELINE_WRONG_DEMULTIPLEXER_GATHER_NODES_ORDER
    | lastGatherSet :: rest =>
      if connectedNodeInfo.nodeName ∉ lastGatherSet then .error .PIPELINE_WRONG_DEMULTIPLEXER_GATHER_NODES_ORDER
      else .ok (if lastGatherSet.erase connectedNodeInfo.nodeName = ∅ then rest
        else lastGatherSet.erase connectedNodeInfo.nodeName :: rest)
  else .ok demultiplyStack

/-- The stack behind a node, on the way back. -/
def newDemultiplyStack (connectedNodeInfo : NodeInfo) (demultiplyStack : DemultiplyStack) :
    Except DefinitionStatus DemultiplyStack :=
  match meetDemultiplexer connectedNodeInfo demultiplyStack with
  | .error status => .error status
  | .ok stack =>
    let newDemultiplyStack :=
      if connectedNodeInfo.gatherFromNode = ∅ then stack else connectedNodeInfo.gatherFromNode :: stack
    if connectedNodeInfo.kind = .ENTRY ∧ newDemultiplyStack ≠ [] then
      .error .PIPELINE_WRONG_DEMULTIPLEXER_GATHER_NODES_ORDER
    else .ok newDemultiplyStack

/-- The dependencies of a node, one after the other; after the validation of the nodes none of them is missing. -/
def checkConnected (definition : PipelineDefinition) (demultiplyStack : DemultiplyStack) :
    List String → OrderSearch → Except DefinitionStatus OrderSearch
  | [], search => .ok search
  | connectedNodeName :: connected, search =>
    match definition.findNodeByName connectedNodeName with
    | none => .error .PIPELINE_NODE_REFERING_TO_MISSING_NODE
    | some connectedNodeInfo =>
      match newDemultiplyStack connectedNodeInfo demultiplyStack with
      | .error status => .error status
      | .ok newStack =>
        match search.visitedNodes.lookup connectedNodeName with
        | some visitedStack =>
          if visitedStack ≠ newStack then .error .PIPELINE_WRONG_DEMULTIPLEXER_GATHER_NODES_ORDER
          else checkConnected definition demultiplyStack connected search
        | none => checkConnected definition demultiplyStack connected {
            nodesToCheck := (connectedNodeName, newStack) :: search.nodesToCheck
            visitedNodes := (connectedNodeName, newStack) :: search.visitedNodes }

def searchOrder (definition : PipelineDefinition) (search : OrderSearch) : OrderSearch ⊕ Except DefinitionStatus Unit :=
  match search.nodesToCheck with
  | [] => .inr (.ok ())
  | (nodeName, demultiplyStack) :: nodesToCheck =>
    match definition.checkConnected demultiplyStack (definition.connectedTo nodeName)
        { search with nodesToCheck := nodesToCheck } with
    | .error status => .inr (.error status)
    | .ok next => .inl next

/-- The stack at the exit. -/
def exitStack (exit : NodeInfo) : DemultiplyStack :=
  if exit.gatherFromNode = ∅ then [] else [exit.gatherFromNode]

/-- After the search for cycles there is an exit. -/
def validateDemultiplexerGatherNodesOrder (definition : PipelineDefinition) (status : Except DefinitionStatus Unit) :
    Prop :=
  match definition.nodeInfos.find? (·.kind = .EXIT) with
  | none => status = .error .PIPELINE_MISSING_ENTRY_OR_EXIT
  | some exit => Loop.Exits definition.searchOrder ⟨[(exit.nodeName, exitStack exit)], []⟩ status

end GatherOrder

/-- A definition that has passed its validation. -/
structure Validated (definition : PipelineDefinition) (checks : MetadataChecks) : Prop where
  nodes : definition.validateNodes checks = .ok ()
  cycles : definition.validateForCycles (.ok ())
  order : definition.validateDemultiplexerGatherNodesOrder (.ok ())

end PipelineDefinition

end ModelServer
