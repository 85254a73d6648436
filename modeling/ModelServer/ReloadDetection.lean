import ModelServer.ModelConfigNode

namespace ModelServer.ReloadDetection

open RequestValidation (Mode)
open ModelConfigNode

section Comparison

/-- Two maps of as many entries, where each entry of the one is found in the other. -/
def isEntriesEqual {α : Type} [DecidableEq α] (lhs rhs : OrderedMap Str α) : Bool :=
  if lhs.entries.length ≠ rhs.entries.length then false
  else lhs.entries.all fun entry =>
    match rhs.find? entry.1 with
    | none => false
    | some value => entry.2 = value

def isLayoutConfigurationEqual (config rhs : ModelConfig) : Bool :=
  if config.layout ≠ rhs.layout then false
  else isEntriesEqual config.layouts rhs.layouts

def isShapeConfigurationEqual (config rhs : ModelConfig) : Bool := isEntriesEqual config.shapes rhs.shapes

def isBatchSizeConfigurationEqual (config rhs : ModelConfig) : Bool :=
  if config.batchSize.isSome ≠ rhs.batchSize.isSome then false
  else
    match config.batchSize, rhs.batchSize with
    | some batchSize, some batchSize' => batchSize = batchSize'
    | _, _ => true

def isCustomLoaderConfigChanged (config rhs : ModelConfig) : Bool :=
  if config.customLoaderOptionsConfigMap.entries.length ≠ rhs.customLoaderOptionsConfigMap.entries.length then true
  else if config.customLoaderOptionsConfigMap.entries.length > 0 ∧ rhs.customLoaderOptionsConfigMap.entries.length > 0 then
    config.customLoaderOptionsConfigMap ≠ rhs.customLoaderOptionsConfigMap
  else false

def isReloadRequired (config rhs : ModelConfig) : Bool :=
  if config.name ≠ rhs.name then true
  else if config.basePath ≠ rhs.basePath then true
  else if config.targetDevice ≠ rhs.targetDevice then true
  else if config.batchingMode ≠ rhs.batchingMode then true
  else if isBatchSizeConfigurationEqual config rhs = false then true
  else if config.nireq ≠ rhs.nireq then true
  else if config.pluginConfig ≠ rhs.pluginConfig then true
  else if isLayoutConfigurationEqual config rhs = false then true
  else if isShapeConfigurationEqual config rhs = false then true
  else if isCustomLoaderConfigChanged config rhs then true
  else if config.isAllowCacheTrue ≠ rhs.isAllowCacheTrue then true
  else false

theorem isEntriesEqual_iff {α : Type} [DecidableEq α] {lhs rhs : OrderedMap Str α} : isEntriesEqual lhs rhs = true ↔ lhs = rhs := by
  rw [isEntriesEqual]
  constructor
  · intro h
    split at h
    next => cases h
    next hlength =>
      refine OrderedMap.eq_of_find? (Decidable.not_not.mp hlength) ?_
      intro entry hm
      have hentry := List.all_eq_true.mp h entry hm
      split at hentry
      next => cases hentry
      next value hfind => rw [hfind, of_decide_eq_true hentry]
  · rintro rfl
    rw [if_neg (not_not.mpr rfl), List.all_eq_true]
    intro entry hm
    have hfind : lhs.find? entry.1 = some entry.2 := OrderedMap.mem_entries_iff.mp hm
    rw [hfind]
    exact decide_eq_true rfl

variable {config rhs : ModelConfig}

theorem isLayoutConfigurationEqual_iff :
    isLayoutConfigurationEqual config rhs = true ↔ config.layout = rhs.layout ∧ config.layouts = rhs.layouts := by
  rw [isLayoutConfigurationEqual, ← isEntriesEqual_iff]
  split
  next hne => exact iff_of_false nofun fun h => hne h.1
  next heq => exact (and_iff_right (Decidable.not_not.mp heq)).symm

theorem isBatchSizeConfigurationEqual_iff :
    isBatchSizeConfigurationEqual config rhs = true ↔ config.batchSize = rhs.batchSize := by
  rw [isBatchSizeConfigurationEqual]
  cases config.batchSize <;> cases rhs.batchSize <;> simp

theorem isCustomLoaderConfigChanged_iff :
    isCustomLoaderConfigChanged config rhs = false ↔ config.customLoaderOptionsConfigMap = rhs.customLoaderOptionsConfigMap := by
  rw [isCustomLoaderConfigChanged]
  split
  next hlength => exact iff_of_false nofun fun h => hlength (congrArg (fun options => options.entries.length) h)
  next hlength =>
    split
    next => rw [decide_eq_false_iff_not, not_not]
    next hempty =>
      have hconfig : config.customLoaderOptionsConfigMap.entries = [] := List.eq_nil_of_length_eq_zero (by omega)
      have hrhs : rhs.customLoaderOptionsConfigMap.entries = [] := List.eq_nil_of_length_eq_zero (by omega)
      exact iff_of_true rfl (OrderedMap.eq_of_entries (hconfig.trans hrhs.symm))

/-- What is compared is equal. -/
structure ComparedEqual (config rhs : ModelConfig) : Prop where
  name : config.name = rhs.name
  basePath : config.basePath = rhs.basePath
  targetDevice : config.targetDevice = rhs.targetDevice
  batchingMode : config.batchingMode = rhs.batchingMode
  batchSize : config.batchSize = rhs.batchSize
  nireq : config.nireq = rhs.nireq
  pluginConfig : config.pluginConfig = rhs.pluginConfig
  layout : config.layout = rhs.layout
  layouts : config.layouts = rhs.layouts
  shapes : config.shapes = rhs.shapes
  customLoaderOptionsConfigMap : config.customLoaderOptionsConfigMap = rhs.customLoaderOptionsConfigMap
  isAllowCacheTrue : config.isAllowCacheTrue = rhs.isAllowCacheTrue

/-- A check that asks for no reload, before the others. -/
theorem ite_reload_iff {p : Prop} [Decidable p] {rest : Bool} : (if p then true else rest) = false ↔ ¬p ∧ rest = false := by
  by_cases h : p
  · rw [if_pos h]
    exact iff_of_false nofun fun hnot => hnot.1 h
  · rw [if_neg h, and_iff_right h]

theorem isReloadRequired_eq_false_iff : isReloadRequired config rhs = false ↔ ComparedEqual config rhs := by
  simp only [isReloadRequired, ite_reload_iff, ne_eq, not_not, Bool.not_eq_false, Bool.not_eq_true, and_true,
    isBatchSizeConfigurationEqual_iff, isLayoutConfigurationEqual_iff, isShapeConfigurationEqual, isEntriesEqual_iff,
    isCustomLoaderConfigChanged_iff]
  constructor
  · rintro ⟨hname, hbasePath, htargetDevice, hbatchingMode, hbatchSize, hnireq, hpluginConfig, ⟨hlayout, hlayouts⟩, hshapes,
      hoptions, hcache⟩
    exact ⟨hname, hbasePath, htargetDevice, hbatchingMode, hbatchSize, hnireq, hpluginConfig, hlayout, hlayouts, hshapes,
      hoptions, hcache⟩
  · intro h
    exact ⟨h.name, h.basePath, h.targetDevice, h.batchingMode, h.batchSize, h.nireq, h.pluginConfig, ⟨h.layout, h.layouts⟩,
      h.shapes, h.customLoaderOptionsConfigMap, h.isAllowCacheTrue⟩

/-- A registered version that is left as it is: all that is compared is as in the new configuration. -/
theorem comparedEqual_of_not_needsReload {newModelConfig : ModelConfig} {versionInstance : Model.ModelInstance ModelConfig}
    (h : Model.needsReload isReloadRequired newModelConfig versionInstance = false) :
    ComparedEqual versionInstance.config newModelConfig := by
  rw [Model.needsReload, Bool.or_eq_false_iff] at h
  exact isReloadRequired_eq_false_iff.mp h.2

end Comparison

section Loading

/-- What a model is loaded by. The version and the local path are left out: they are set for each version that is loaded. -/
structure LoadedValues where
  name : Str
  basePath : Str
  targetDevice : Str
  batchingMode : Mode
  batchSize : Option Dimension
  nireq : BitVec 32
  isAllowCacheTrue : Bool
  pluginConfig : OrderedMap Str PluginValue
  layout : LayoutConfiguration
  shapes : OrderedMap Str ShapeInfo
  layouts : OrderedMap Str LayoutConfiguration
  customLoaderOptionsConfigMap : OrderedMap Str Str
  customLoaderOptionsStr : Str
  meanValues : Option FloatVecOrValue
  scaleValues : Option FloatVecOrValue
  colorFormat : Option ColorFormatConfiguration
  precision : Option PrecisionConfiguration
deriving DecidableEq

/-- What `loadModelImpl` and the functions that it calls read of a configuration. -/
def loadedValues (config : ModelConfig) : LoadedValues where
  -- `loadOVModelUsingCustomLoader`
  name := config.name
  basePath := config.basePath
  customLoaderOptionsConfigMap := config.customLoaderOptionsConfigMap
  customLoaderOptionsStr := config.customLoaderOptionsStr
  -- `loadModelImpl`, `setCacheOptions` and `prepareInferenceRequestsQueue`
  targetDevice := config.targetDevice
  isAllowCacheTrue := config.isAllowCacheTrue
  nireq := config.nireq
  -- `loadTensors`
  batchingMode := config.batchingMode
  batchSize := config.batchSize
  shapes := config.shapes
  layout := config.layout
  layouts := config.layouts
  -- `applyPreprocessingConfiguration`
  meanValues := config.meanValues
  scaleValues := config.scaleValues
  colorFormat := config.colorFormat
  precision := config.precision
  -- `loadOVCompiledModel`
  pluginConfig := config.pluginConfig

/-- What is not compared is equal. -/
structure UncomparedEqual (config rhs : ModelConfig) : Prop where
  meanValues : config.meanValues = rhs.meanValues
  scaleValues : config.scaleValues = rhs.scaleValues
  colorFormat : config.colorFormat = rhs.colorFormat
  precision : config.precision = rhs.precision
  customLoaderOptionsStr : config.customLoaderOptionsStr = rhs.customLoaderOptionsStr

theorem loadedValues_eq_iff {config rhs : ModelConfig} :
    loadedValues config = loadedValues rhs ↔ ComparedEqual config rhs ∧ UncomparedEqual config rhs := by
  constructor
  · intro h
    simp only [loadedValues, LoadedValues.mk.injEq] at h
    obtain ⟨hname, hbasePath, htargetDevice, hbatchingMode, hbatchSize, hnireq, hcache, hpluginConfig, hlayout, hshapes, hlayouts,
      hoptions, hstr, hmean, hscale, hcolorFormat, hprecision⟩ := h
    exact ⟨⟨hname, hbasePath, htargetDevice, hbatchingMode, hbatchSize, hnireq, hpluginConfig, hlayout, hlayouts, hshapes, hoptions,
      hcache⟩, hmean, hscale, hcolorFormat, hprecision, hstr⟩
  · intro ⟨hcompared, huncompared⟩
    simp only [loadedValues, LoadedValues.mk.injEq]
    exact ⟨hcompared.name, hcompared.basePath, hcompared.targetDevice, hcompared.batchingMode, hcompared.batchSize, hcompared.nireq,
      hcompared.isAllowCacheTrue, hcompared.pluginConfig, hcompared.layout, hcompared.shapes, hcompared.layouts,
      hcompared.customLoaderOptionsConfigMap, huncompared.customLoaderOptionsStr, huncompared.meanValues, huncompared.scaleValues,
      huncompared.colorFormat, huncompared.precision⟩

/-- A configuration for which no reload is required is loaded as the running one is if and only if they also agree in what
is not compared. -/
theorem isReloadRequired_complete_iff (running new : ModelConfig) :
    (isReloadRequired running new = false → loadedValues running = loadedValues new) ↔
      (ComparedEqual running new → UncomparedEqual running new) := by
  rw [isReloadRequired_eq_false_iff, loadedValues_eq_iff]
  exact forall_congr' fun hcompared => and_iff_right hcompared

end Loading

section Edits

/-- A library of which only the text of one object of options is needed. -/
def optionsLibrary : Library where
  stof _ := none
  toString _ := []
  document _ := none
  accept _ := bytes "\x7b\"loader_name\":\"sample\"\x7d"
  isFullPath path := path.head? = some (char '/')

def member (name value : String) : Str × RestRequest.Node := (bytes name, .string (bytes value))

/-- The model with one more member. -/
def resnetWith (edited : Str × RestRequest.Node) : List (Str × RestRequest.Node) :=
  [member "name" "resnet", member "base_path" "/models/resnet", edited]

/-- The configuration of the model, with one more member. -/
def resnet (edit : ModelConfig → ModelConfig) : ModelConfig :=
  edit { name := bytes "resnet", basePath := bytes "/models/resnet" }

def sampleOptions : OrderedMap Str Str := OrderedMap.empty.assign (bytes "loader_name") (bytes "sample")

/-- The color format is edited, and an option of a custom loader that is no string; both edits are overlooked. -/
theorem edits_ignored :
    (∃ running new, parseNode optionsLibrary (resnetWith (member "color_format" "RGB:BGR")) {} = .ok running ∧
      parseNode optionsLibrary (resnetWith (member "color_format" "BGR:RGB")) {} = .ok new ∧
      running.name = new.name ∧ isReloadRequired running new = false ∧ loadedValues running ≠ loadedValues new) ∧
    ∃ running new, parseNode optionsLibrary (resnetWith (bytes "custom_loader_options",
        .object [member "loader_name" "sample", (bytes "threads", .number (.integer 4 (by decide)))])) {} = .ok running ∧
      parseNode optionsLibrary (resnetWith (bytes "custom_loader_options", .object [member "loader_name" "sample"])) {} = .ok new ∧
      running.name = new.name ∧ isReloadRequired running new = false ∧ loadedValues running ≠ loadedValues new := by
  refine ⟨⟨resnet fun config => { config with colorFormat := some ⟨.RGB, .BGR⟩ },
    resnet fun config => { config with colorFormat := some ⟨.BGR, .RGB⟩ }, ?_⟩,
    resnet fun config => { config with customLoaderOptionsConfigMap := sampleOptions },
    resnet fun config => { config with
      customLoaderOptionsConfigMap := sampleOptions
      customLoaderOptionsStr := bytes "\x7b\"loader_name\":\"sample\"\x7d" }, ?_⟩
  · decide +kernel
  · decide +kernel

end Edits

end ModelServer.ReloadDetection
