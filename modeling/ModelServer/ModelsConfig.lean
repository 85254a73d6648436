import ModelServer.OrderedMap
import Mathlib.Data.String.Basic
import Mathlib.Logic.Function.Basic

namespace ModelServer.ModelsConfig

inductive StatusCode
  | OK
  | OK_RELOADED
  | OK_NOT_RELOADED
  | MODEL_CONFIG_INVALID
  | MODEL_NAME_OCCUPIED
  | REQUESTED_DYNAMIC_PARAMETERS_ON_SUBSCRIBED_MODEL
  | JSON_INVALID
  /-- Any other error of parsing, of the plugin configuration or of a load. -/
  | other (code : Nat)
deriving DecidableEq

def StatusCode.ok : StatusCode → Bool
  | .OK | .OK_RELOADED | .OK_NOT_RELOADED => true
  | _ => false

/-- A model configuration; `γ` holds what the loader of the configuration file does not look at. -/
structure ModelConfig (γ : Type) where
  name : String
  cacheDir : String
  parameters : γ
deriving DecidableEq

/-- The model list of a mediapipe graph: its subconfiguration file is missing, invalid, or lists models. -/
inductive Subconfig (ρ : Type)
  | missing
  | invalid
  | models (rootDirectoryPath : String) (entries : List ρ)

/-- What the loader calls; `ρ` are the entries of the configuration file and `μ` the models. -/
structure Environment (ρ γ μ : Type) where
  /-- The entry is a mediapipe graph, and its graph file can be opened. -/
  parseGraph : String → ρ → Option (Subconfig ρ)
  parseNode : String → ρ → StatusCode × ModelConfig γ
  validatePluginConfiguration : ModelConfig γ → StatusCode
  modelCacheDirectory : String
  /-- A pipeline or a mediapipe graph has this name. -/
  servableExists : String → Bool
  modelFactory : String → μ
  reloadModelWithVersions : ModelConfig γ → μ → StatusCode × μ
  retireAllVersions : μ → μ
  cleanupAllVersions : μ → μ

/-- A call that changes a model. -/
inductive Call (γ : Type)
  | reloadModelWithVersions (config : ModelConfig γ)
  | retireAllVersions
  | cleanupAllVersions
deriving DecidableEq

structure ModelManager (γ μ : Type) where
  models : OrderedMap String μ
  servedModelConfigs : String → Option (ModelConfig γ)
  /-- The calls made so far, with the names of their models. -/
  calls : List (String × Call γ)

/-- What the loops over entries work on. -/
structure Loading (ρ γ μ : Type) where
  manager : ModelManager γ μ
  gatedModelConfigs : List (ModelConfig γ)
  modelsInConfigFile : List String
  modelsWithInvalidConfig : List String
  newModelConfigs : String → Option (ModelConfig γ)
  mediapipesInConfigFile : List (Subconfig ρ)

variable {ρ γ μ : Type}

/-- A new entry for the name; an entry it already has is kept. -/
def emplace (configs : String → Option (ModelConfig γ)) (name : String) (config : ModelConfig γ) :
    String → Option (ModelConfig γ) :=
  if (configs name).isSome then configs else Function.update configs name (some config)

namespace ModelManager

variable (manager : ModelManager γ μ)

/-- The model of this name is changed by a call; it is created if there is none. -/
def call (name : String) (made : Call γ) (new : μ) (change : μ → μ) : ModelManager γ μ :=
  { manager with
    models := (manager.models.emplace name new).modify name change
    calls := manager.calls ++ [(name, made)] }

end ModelManager

namespace Environment

variable (env : Environment ρ γ μ)

/-- The model is reloaded with its new configuration, which is served or kept for later. -/
def reload (s : Loading ρ γ μ) (config : ModelConfig γ) : StatusCode × Loading ρ γ μ :=
  let new := env.modelFactory config.name
  let status := (env.reloadModelWithVersions config ((s.manager.models.find? config.name).getD new)).1
  let manager := s.manager.call config.name (.reloadModelWithVersions config) new
    fun model => (env.reloadModelWithVersions config model).2
  let s := { s with manager, modelsInConfigFile := s.modelsInConfigFile ++ [config.name] }
  if status = .REQUESTED_DYNAMIC_PARAMETERS_ON_SUBSCRIBED_MODEL then
    match s.manager.servedModelConfigs config.name with
    | none => (status, s)
    | some served => (status, { s with
        gatedModelConfigs := s.gatedModelConfigs ++ [config]
        newModelConfigs := emplace s.newModelConfigs config.name served
        manager := { s.manager with
          servedModelConfigs := Function.update s.manager.servedModelConfigs config.name none } })
  else (status, { s with newModelConfigs := emplace s.newModelConfigs config.name config })

/-- One turn of the loop of `loadModels`: the status for the first error, if the turn has one, or the status that the
loop is left with. -/
def loadEntry (rootDirectoryPath : String) (s : Loading ρ γ μ) (entry : ρ) :
    Except StatusCode (Option StatusCode × Loading ρ γ μ) :=
  match env.parseGraph rootDirectoryPath entry with
  | some graph => .ok (none, { s with mediapipesInConfigFile := s.mediapipesInConfigFile ++ [graph] })
  | none =>
    let (status, modelConfig) := env.parseNode rootDirectoryPath entry
    if status.ok then
      let status := env.validatePluginConfiguration modelConfig
      if status.ok then
        let modelConfig := { modelConfig with cacheDir := env.modelCacheDirectory }
        if env.servableExists modelConfig.name then .ok (some .MODEL_NAME_OCCUPIED, s)
        else if modelConfig.name ∈ s.modelsInConfigFile then .ok (some .MODEL_NAME_OCCUPIED, s)
        else
          let (status, s) := env.reload s modelConfig
          .ok (some status, s)
      else .error status
    else
      .ok (some .MODEL_CONFIG_INVALID,
        { s with modelsWithInvalidConfig := s.modelsWithInvalidConfig ++ [modelConfig.name] })

def setFirstError (firstErrorStatus : StatusCode) (status : Option StatusCode) : StatusCode :=
  if firstErrorStatus.ok then status.getD firstErrorStatus else firstErrorStatus

def loadModelsFrom (rootDirectoryPath : String) :
    List ρ → StatusCode → Loading ρ γ μ → StatusCode × Loading ρ γ μ
  | [], firstErrorStatus, s => (firstErrorStatus, s)
  | entry :: entries, firstErrorStatus, s =>
    match env.loadEntry rootDirectoryPath s entry with
    | .error status => (status, s)
    | .ok (status, s) => loadModelsFrom rootDirectoryPath entries (setFirstError firstErrorStatus status) s

def loadModels (rootDirectoryPath : String) (modelsConfigList : List ρ) (s : Loading ρ γ μ) :
    StatusCode × Loading ρ γ μ :=
  env.loadModelsFrom rootDirectoryPath modelsConfigList .OK s

/-- The models of the subconfigurations; the graphs that these list are left aside. -/
def loadMediapipeSubConfigModels : List (Subconfig ρ) → Loading ρ γ μ → Loading ρ γ μ
  | [], s => s
  | .missing :: graphs, s => loadMediapipeSubConfigModels graphs s
  | .invalid :: _, s => s
  | .models rootDirectoryPath entries :: graphs, s =>
    let loaded := (env.loadModels rootDirectoryPath entries s).2
    loadMediapipeSubConfigModels graphs { loaded with mediapipesInConfigFile := s.mediapipesInConfigFile }

/-- One turn of the loop of `retireModelsRemovedFromConfigFile`. -/
def retireModel (modelsWithInvalidConfig : List String) (manager : ModelManager γ μ) (modelName : String) :
    ModelManager γ μ :=
  if modelName ∈ modelsWithInvalidConfig then
    manager.call modelName .cleanupAllVersions (env.modelFactory modelName) env.cleanupAllVersions
  else manager.call modelName .retireAllVersions (env.modelFactory modelName) env.retireAllVersions

def retireModelsRemovedFromConfigFile (manager : ModelManager γ μ) (modelsExistingInConfigFile
    modelsWithInvalidConfig : List String) : ModelManager γ μ :=
  (manager.models.keys.filter (· ∉ modelsExistingInConfigFile)).foldl (env.retireModel modelsWithInvalidConfig) manager

/-- `loadModelsConfig` with the mediapipe graphs known so far; the gated configurations are returned beside the manager. -/
def loadModelsConfig (rootDirectoryPath : String) (modelConfigList : Option (List ρ)) (graphs : List (Subconfig ρ))
    (manager : ModelManager γ μ) : StatusCode × ModelManager γ μ × List (ModelConfig γ) :=
  match modelConfigList with
  | none => (.JSON_INVALID, manager, [])
  | some entries =>
    let (status, s) := env.loadModels rootDirectoryPath entries ⟨manager, [], [], [], fun _ => none, graphs⟩
    let s := env.loadMediapipeSubConfigModels s.mediapipesInConfigFile s
    let manager := { s.manager with servedModelConfigs := s.newModelConfigs }
    (if status.ok then .OK else status, env.retireModelsRemovedFromConfigFile manager s.modelsInConfigFile s.modelsWithInvalidConfig,
      s.gatedModelConfigs)

end Environment

end ModelServer.ModelsConfig
