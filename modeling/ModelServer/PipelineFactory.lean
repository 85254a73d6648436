import Mathlib.Data.String.Basic
import ModelServer.CheckedSteps
import ModelServer.ModelNotifications
import ModelServer.PipelineDefinitionGuard
import ModelServer.Subscriptions

namespace ModelServer.PipelineFactory

open PipelineUnloadGuard (PipelineDefinitionStateCode StatusEvent)
open Runs Subscriptions

/-- A model by its name, and its version or 0. -/
abbrev Reference := String × Int

/-- What the code reads of a configuration of type `κ`, and what the validation of its nodes says of the instances that
its DL nodes refer to. -/
structure Configurations (γ κ ν : Type) where
  references : κ → List Reference
  validateNodes : κ → List (Option (Int × γ)) → Except ν Unit

inductive StatusCode (ν : Type)
  | OK
  | PIPELINE_DEFINITION_ALREADY_EXIST
  | PIPELINE_NAME_OCCUPIED
  | UNKNOWN_ERROR
  | invalid (error : ν)
deriving DecidableEq

def isRevalidationRequired : PipelineDefinitionStateCode → Bool
  | .LOADING_PRECONDITION_FAILED_REQUIRED_REVALIDATION | .AVAILABLE_REQUIRED_REVALIDATION => true
  | _ => false

structure PipelineDefinition (κ : Type) where
  status : PipelineDefinitionStateCode
  /-- Its nodes and connections, until they are cleared. -/
  config : Option κ
  subscriptions : List Reference

/-- What the configuration thread works on; the subscribers of a reference are those of its model or its instance. -/
structure ModelManager (γ κ : Type) where
  models : String → Option (Model γ)
  subscribers : Reference → List String
  /-- The names and the aliases of graphs. -/
  graphs : List String
  definitions : OrderedMap String (PipelineDefinition κ)

variable {γ ε κ ν : Type}

/-- The names and configurations of the pipelines of a configuration file, or what is wrong with them. -/
abbrev PipelineConfigs (κ ν : Type) := List (String × Except (StatusCode ν) κ)

namespace ModelManager

def initial : ModelManager γ κ := ⟨fun _ => none, fun _ => [], [], .empty⟩

section

variable (s : ModelManager γ κ)

def modelExists (name : String) : Bool := (s.models name).isSome

def definitionExists (name : String) : Bool := (s.definitions.find? name).isSome

/-- What the subscribers of a reference learn from: the instance that requests for it get. -/
def getModelInstance (reference : Reference) : Option (Int × γ) :=
  (s.models reference.1).bind fun model => model.getModelInstance reference.2

/-- There is a model, or an instance, to subscribe to. -/
def isPresent (reference : Reference) : Bool :=
  (s.models reference.1).any fun model => decide (model.Registered reference.2)

/-- `none` where the subscription throws; else whether there was something to subscribe to. -/
def subscribeToModel (reference : Reference) (receiver : String) : Option (ModelManager γ κ × Bool) :=
  if s.isPresent reference then
    (subscribe s.subscribers reference receiver).map fun subscribers => ({ s with subscribers }, true)
  else some (s, false)

def unsubscribeFromModel (receiver : String) (reference : Reference) : Option (ModelManager γ κ) :=
  if s.isPresent reference then
    (unsubscribe s.subscribers reference receiver).map fun subscribers => { s with subscribers }
  else some s

/-- The status of the named definition is told that a model changed; `none` where it throws. -/
def receiveNotification (name : String) : Option (ModelManager γ κ) :=
  (s.definitions.find? name).bind fun definition =>
    (definition.status.handle .UsedModelChangedEvent).map fun status =>
      { s with definitions := s.definitions.modify name fun definition => { definition with status } }

def notifySubscribers (reference : Reference) : Option (ModelManager γ κ) :=
  (s.subscribers reference).foldlM receiveNotification s

/-- An operation on a model. The subscribers are told in the course of it, but look at the model later. -/
def changeModel (name : String) (operation : Model.Operation γ ε) : Option (ModelManager γ κ) :=
  (s.models name).elim (some s) fun model =>
    (model.step operation).bind fun changed =>
      (model.notifications operation).foldlM (fun (s : ModelManager γ κ) version => s.notifySubscribers (name, version))
        { s with models := Function.update s.models name (some changed) }

end

/-- The turns of the loop of `makeSubscriptions`. -/
def makeSubscriptions (name : String) : List Reference → ModelManager γ κ → PipelineDefinition κ →
    Option (ModelManager γ κ × PipelineDefinition κ)
  | [], s, definition => some (s, definition)
  | reference :: rest, s, definition =>
    if reference ∈ definition.subscriptions then makeSubscriptions name rest s definition
    else
      (s.subscribeToModel reference name).bind fun (s, subscribed) =>
        makeSubscriptions name rest s <|
          if subscribed then { definition with subscriptions := reference :: definition.subscriptions } else definition

section

variable (s : ModelManager γ κ)

def resetSubscriptions (name : String) (definition : PipelineDefinition κ) :
    Option (ModelManager γ κ × PipelineDefinition κ) :=
  (definition.subscriptions.foldlM (fun (s : ModelManager γ κ) reference => s.unsubscribeFromModel name reference) s).map
    fun s => (s, { definition with subscriptions := [] })

def retire (name : String) (definition : PipelineDefinition κ) : Option (ModelManager γ κ) :=
  (s.resetSubscriptions name definition).bind fun (s, definition) =>
    (definition.status.handle .RetireEvent).map fun status =>
      { s with definitions := s.definitions.modify name fun _ => { definition with status, config := none } }

/-- One turn of the loop of `retireOtherThan`. -/
def retireOther (pipelinesInConfigFile : List String) (name : String) : Option (ModelManager γ κ) :=
  (s.definitions.find? name).elim (some s) fun definition =>
    if name ∉ pipelinesInConfigFile ∧ definition.status ≠ .RETIRED then s.retire name definition else some s

def retireOtherThan (pipelinesInConfigFile : List String) : Option (ModelManager γ κ) :=
  s.definitions.keys.foldlM (fun (s : ModelManager γ κ) name => s.retireOther pipelinesInConfigFile name) s

variable (configurations : Configurations γ κ ν)

/-- What the nodes of a definition say at this moment. -/
def validateNodes (definition : PipelineDefinition κ) : Except ν Unit :=
  definition.config.elim (.ok ()) fun config =>
    configurations.validateNodes config ((configurations.references config).map s.getModelInstance)

/-- The result is notified to the status when the validation ends. -/
def validate (name : String) (definition : PipelineDefinition κ) : Option (StatusCode ν × PipelineDefinition κ) :=
  if s.modelExists name ∨ name ∈ s.graphs then
    (definition.status.handle .ValidationFailedEvent).map fun status => (.PIPELINE_NAME_OCCUPIED, { definition with status })
  else
    match s.validateNodes configurations definition with
    | .ok () => (definition.status.handle .ValidationPassedEvent).map fun status => (.OK, { definition with status })
    | .error error =>
      (definition.status.handle .ValidationFailedEvent).map fun status => (.invalid error, { definition with status })

def createDefinition (name : String) (config : κ) : Option (StatusCode ν × ModelManager γ κ) :=
  if s.definitionExists name then some (.PIPELINE_DEFINITION_ALREADY_EXIST, s)
  else
    (makeSubscriptions name (configurations.references config) s ⟨.BEGIN, some config, []⟩).bind fun (s, definition) =>
      (s.validate configurations name definition).bind fun (result, definition) =>
        match result with
        | .PIPELINE_NAME_OCCUPIED => (s.resetSubscriptions name definition).map fun (s, _) => (result, s)
        | _ => some (result, { s with definitions := s.definitions.assign name definition })

def reload (name : String) (definition : PipelineDefinition κ) (config : κ) : Option (StatusCode ν × ModelManager γ κ) :=
  (definition.status.handle .ReloadEvent).bind fun status =>
    (s.resetSubscriptions name { definition with status }).bind fun (s, definition) =>
      (makeSubscriptions name (configurations.references config) s { definition with config := some config }).bind
        fun (s, definition) =>
          (s.validate configurations name definition).map fun (result, definition) =>
            (result, { s with definitions := s.definitions.modify name fun _ => definition })

def reloadDefinition (name : String) (config : κ) : Option (StatusCode ν × ModelManager γ κ) :=
  (s.definitions.find? name).elim (some (.UNKNOWN_ERROR, s)) fun definition =>
    s.reload configurations name definition config

end

end ModelManager

/-- What a loop over definitions keeps. -/
structure Progress (γ κ ν : Type) where
  manager : ModelManager γ κ
  firstErrorStatus : StatusCode ν
  pipelinesInConfigFile : List String

namespace Progress

variable (p : Progress γ κ ν) (configurations : Configurations γ κ ν)

def setFirstError : StatusCode ν → StatusCode ν → StatusCode ν
  | .OK, status => status
  | firstErrorStatus, _ => firstErrorStatus

def processPipelineConfig (entry : String × Except (StatusCode ν) κ) : Option (Progress γ κ ν) :=
  if entry.1 ∈ p.pipelinesInConfigFile then some p
  else
    match entry.2 with
    | .error status => some { p with firstErrorStatus := setFirstError p.firstErrorStatus status }
    | .ok config =>
      (if p.manager.definitionExists entry.1 then p.manager.reloadDefinition configurations entry.1 config
        else p.manager.createDefinition configurations entry.1 config).map fun (status, manager) =>
        ⟨manager, setFirstError p.firstErrorStatus status, entry.1 :: p.pipelinesInConfigFile⟩

/-- One turn of the loop of `revalidatePipelines`. -/
def revalidate (name : String) : Option (Progress γ κ ν) :=
  (p.manager.definitions.find? name).elim (some p) fun definition =>
    if isRevalidationRequired definition.status then
      (p.manager.validate configurations name definition).map fun (status, definition) =>
        { p with
          manager := { p.manager with definitions := p.manager.definitions.modify name fun _ => definition }
          firstErrorStatus := setFirstError p.firstErrorStatus status }
    else some p

end Progress

namespace ModelManager

variable (s : ModelManager γ κ) (configurations : Configurations γ κ ν)

def loadPipelinesConfig (configs : PipelineConfigs κ ν) : Option (StatusCode ν × ModelManager γ κ) :=
  (configs.foldlM (fun (p : Progress γ κ ν) entry => p.processPipelineConfig configurations entry) ⟨s, .OK, []⟩).bind fun p =>
    (p.manager.retireOtherThan p.pipelinesInConfigFile).map fun manager => (p.firstErrorStatus, manager)

def revalidatePipelines : Option (StatusCode ν × ModelManager γ κ) :=
  (s.definitions.keys.foldlM (fun (p : Progress γ κ ν) name => p.revalidate configurations name) ⟨s, .OK, []⟩).map
    fun p => (p.firstErrorStatus, p.manager)

end ModelManager

/-- What the configuration thread does, in any order. -/
inductive Action (γ ε κ ν : Type)
  /-- A model of the configuration file whose name is not taken. -/
  | createModel (name : String)
  | changeModel (name : String) (operation : Model.Operation γ ε)
  | registerGraph (name : String)
  | clearLoraAlias (name : String)
  | loadPipelinesConfig (configs : PipelineConfigs κ ν)
  | revalidatePipelines

/-- `none` where an exception leaves the function. -/
def step (configurations : Configurations γ κ ν) (s : ModelManager γ κ) : Action γ ε κ ν → Option (ModelManager γ κ)
  | .createModel name =>
    if s.definitionExists name ∨ name ∈ s.graphs ∨ s.modelExists name then some s
    else some { s with models := Function.update s.models name (some .initial) }
  | .changeModel name operation => s.changeModel name operation
  | .registerGraph name =>
    if s.modelExists name ∨ s.definitionExists name then some s else some { s with graphs := name :: s.graphs }
  | .clearLoraAlias name => some { s with graphs := s.graphs.erase name }
  | .loadPipelinesConfig configs => (s.loadPipelinesConfig configurations configs).map Prod.snd
  | .revalidatePipelines => (s.revalidatePipelines configurations).map Prod.snd

end ModelServer.PipelineFactory
