import ModelServer.ModelsConfig
import Mathlib.Tactic.Tauto

namespace ModelServer.ModelsConfig

variable {ρ γ μ : Type}

/-- All that is known about the models of one name while the entries are loaded. -/
structure View (γ μ : Type) where
  model : Option μ
  served : Option (ModelConfig γ)
  new : Option (ModelConfig γ)
  inConfigFile : Bool
  invalid : Bool
  calls : List (String × Call γ)
  gated : List (ModelConfig γ)
deriving DecidableEq

def Loading.view (s : Loading ρ γ μ) (name : String) : View γ μ where
  model := s.manager.models.find? name
  served := s.manager.servedModelConfigs name
  new := s.newModelConfigs name
  inConfigFile := name ∈ s.modelsInConfigFile
  invalid := name ∈ s.modelsWithInvalidConfig
  calls := s.manager.calls.filter (·.1 = name)
  gated := s.gatedModelConfigs.filter (·.name = name)

/-- What `loadModelsConfig` does to the models of one name. -/
structure Effect (γ μ : Type) where
  model : Option μ
  served : Option (ModelConfig γ)
  calls : List (String × Call γ)
  gated : List (ModelConfig γ)
deriving DecidableEq

def effect (name : String) (result : StatusCode × ModelManager γ μ × List (ModelConfig γ)) : Effect γ μ where
  model := result.2.1.models.find? name
  served := result.2.1.servedModelConfigs name
  calls := result.2.1.calls.filter (·.1 = name)
  gated := result.2.2.filter (·.name = name)

section Call

variable {manager : ModelManager γ μ} {name other : String} {made : Call γ} {new : μ} {change : μ → μ}

theorem find?_call_self : (manager.call name made new change).models.find? name =
    some (change ((manager.models.find? name).getD new)) := by
  unfold ModelManager.call
  rw [OrderedMap.find?_modify, if_pos rfl, OrderedMap.find?_emplace]
  by_cases hregistered : name ∈ manager.models.keys
  · obtain ⟨found, hfound⟩ := OrderedMap.mem_keys_iff.mp hregistered
    simp [hregistered, hfound]
  · simp [hregistered, OrderedMap.find?_eq_none_iff.mpr hregistered]

theorem find?_call_other (h : name ≠ other) :
    (manager.call other made new change).models.find? name = manager.models.find? name := by
  unfold ModelManager.call
  rw [OrderedMap.find?_modify, if_neg h, OrderedMap.find?_emplace, if_neg fun hand => h hand.1]

theorem calls_call_self : (manager.call name made new change).calls.filter (·.1 = name) =
    manager.calls.filter (·.1 = name) ++ [(name, made)] := by
  simp [ModelManager.call, List.filter_append]

theorem calls_call_other (h : name ≠ other) :
    (manager.call other made new change).calls.filter (·.1 = name) = manager.calls.filter (·.1 = name) := by
  simp [ModelManager.call, List.filter_append, h.symm]

@[simp] theorem servedModelConfigs_call :
    (manager.call name made new change).servedModelConfigs = manager.servedModelConfigs := rfl

end Call

theorem emplace_self (configs : String → Option (ModelConfig γ)) (name : String) (config : ModelConfig γ) :
    emplace configs name config name = some ((configs name).getD config) := by
  unfold emplace
  cases h : configs name with
  | none => simp
  | some found => simp [h]

theorem emplace_other {configs : String → Option (ModelConfig γ)} {name other : String} (h : name ≠ other)
    (config : ModelConfig γ) : emplace configs other config name = configs name := by
  unfold emplace
  split
  next => rfl
  next => exact Function.update_of_ne h _ _

variable (env : Environment ρ γ μ) (rootDirectoryPath : String)

/-- The loop of `loadModels` is left at this entry, for its plugin configuration. -/
def unsupported (entry : ρ) : Bool :=
  (env.parseGraph rootDirectoryPath entry).isNone && (env.parseNode rootDirectoryPath entry).1.ok &&
    !(env.validatePluginConfiguration (env.parseNode rootDirectoryPath entry).2).ok

def entryName (entry : ρ) : String := (env.parseNode rootDirectoryPath entry).2.name

/-- What a turn of the loop leaves behind. -/
def turn (s : Loading ρ γ μ) (entry : ρ) : Loading ρ γ μ :=
  match env.loadEntry rootDirectoryPath s entry with
  | .ok (_, s) => s
  | .error _ => s

namespace View

/-- `reload`, on the view of its own name. -/
def reload (v : View γ μ) (config : ModelConfig γ) : View γ μ :=
  let reloaded := env.reloadModelWithVersions config (v.model.getD (env.modelFactory config.name))
  let v := { v with
    model := some reloaded.2
    calls := v.calls ++ [(config.name, Call.reloadModelWithVersions config)]
    inConfigFile := true }
  if reloaded.1 = .REQUESTED_DYNAMIC_PARAMETERS_ON_SUBSCRIBED_MODEL then
    match v.served with
    | none => v
    | some served => { v with
        gated := v.gated ++ [config]
        new := some (v.new.getD served)
        served := none }
  else { v with new := some (v.new.getD config) }

/-- The turn of an entry, on the view of its own name. -/
def turn (v : View γ μ) (entry : ρ) : View γ μ :=
  if (env.parseGraph rootDirectoryPath entry).isSome then v
  else if (env.parseNode rootDirectoryPath entry).1.ok then
    if unsupported env rootDirectoryPath entry then v
    else if env.servableExists (entryName env rootDirectoryPath entry) then v
    else if v.inConfigFile then v
    else v.reload env { (env.parseNode rootDirectoryPath entry).2 with cacheDir := env.modelCacheDirectory }
  else { v with invalid := true }

/-- The models of a name that is not in the configuration file are retired or cleaned up. -/
def retire (name : String) (v : View γ μ) : Effect γ μ :=
  match v.model with
  | none => ⟨none, v.new, v.calls, v.gated⟩
  | some model =>
    if v.inConfigFile then ⟨some model, v.new, v.calls, v.gated⟩
    else if v.invalid then
      ⟨some (env.cleanupAllVersions model), v.new, v.calls ++ [(name, .cleanupAllVersions)], v.gated⟩
    else ⟨some (env.retireAllVersions model), v.new, v.calls ++ [(name, .retireAllVersions)], v.gated⟩

end View

variable {env} {rootDirectoryPath} {name : String} {s t : Loading ρ γ μ} {entry : ρ}

theorem view_inConfigFile : (s.view name).inConfigFile = true ↔ name ∈ s.modelsInConfigFile :=
  decide_eq_true_iff

theorem view_reload_other {config : ModelConfig γ} (h : name ≠ config.name) :
    (env.reload s config).2.view name = s.view name := by
  unfold Environment.reload Loading.view
  dsimp only
  split
  next =>
    split
    next => simp [find?_call_other h, calls_call_other h, h]
    next => simp [find?_call_other h, calls_call_other h, h, h.symm, emplace_other h]
  next => simp [find?_call_other h, calls_call_other h, h, emplace_other h]

theorem view_reload_self (config : ModelConfig γ) :
    (env.reload s config).2.view config.name = (s.view config.name).reload env config := by
  unfold Environment.reload Loading.view View.reload
  dsimp only
  split
  next =>
    rw [servedModelConfigs_call]
    cases hserved : s.manager.servedModelConfigs config.name with
    | none => simp [find?_call_self, calls_call_self, hserved]
    | some served => simp [find?_call_self, calls_call_self, emplace_self]
  next => simp [find?_call_self, calls_call_self, emplace_self]

theorem unsupported_iff : unsupported env rootDirectoryPath entry = true ↔
    env.parseGraph rootDirectoryPath entry = none ∧ (env.parseNode rootDirectoryPath entry).1.ok = true ∧
      (env.validatePluginConfiguration (env.parseNode rootDirectoryPath entry).2).ok = false := by
  simp [unsupported, and_assoc]

theorem loadEntry_error_iff : (∃ status, env.loadEntry rootDirectoryPath s entry = .error status) ↔
    unsupported env rootDirectoryPath entry = true := by
  rw [unsupported_iff]
  unfold Environment.loadEntry
  cases env.parseGraph rootDirectoryPath entry with
  | some graph => simp
  | none =>
    dsimp only
    split
    next hparsed =>
      rw [hparsed]
      split
      next hvalid =>
        split
        next => simp [hvalid]
        next => split <;> simp [hvalid]
      next hinvalid => simp [hinvalid]
    next hrejected => simp [hrejected]

/-- What a turn does, once its status is left aside. -/
theorem turn_eq : turn env rootDirectoryPath s entry =
    match env.parseGraph rootDirectoryPath entry with
    | some graph => { s with mediapipesInConfigFile := s.mediapipesInConfigFile ++ [graph] }
    | none =>
      if (env.parseNode rootDirectoryPath entry).1.ok then
        if unsupported env rootDirectoryPath entry then s
        else if env.servableExists (entryName env rootDirectoryPath entry) then s
        else if entryName env rootDirectoryPath entry ∈ s.modelsInConfigFile then s
        else (env.reload s { (env.parseNode rootDirectoryPath entry).2 with cacheDir := env.modelCacheDirectory }).2
      else { s with
        modelsWithInvalidConfig := s.modelsWithInvalidConfig ++ [entryName env rootDirectoryPath entry] } := by
  unfold turn Environment.loadEntry unsupported entryName
  cases env.parseGraph rootDirectoryPath entry with
  | some graph => rfl
  | none =>
    dsimp only
    by_cases hparsed : (env.parseNode rootDirectoryPath entry).1.ok = true
    · rw [if_pos hparsed, if_pos hparsed, hparsed]
      by_cases hvalid : (env.validatePluginConfiguration (env.parseNode rootDirectoryPath entry).2).ok = true
      · by_cases hoccupied : env.servableExists (env.parseNode rootDirectoryPath entry).2.name = true
        · simp [hvalid, hoccupied]
        · by_cases hduplicate : (env.parseNode rootDirectoryPath entry).2.name ∈ s.modelsInConfigFile
          · simp [hvalid, hoccupied, hduplicate]
          · simp [hvalid, hoccupied, hduplicate]
      · simp [hvalid]
    · rw [if_neg hparsed, if_neg hparsed]

/-- A turn leaves the models of other names alone. -/
theorem view_turn_other (h : name ≠ entryName env rootDirectoryPath entry) :
    (turn env rootDirectoryPath s entry).view name = s.view name := by
  rw [turn_eq]
  split
  next => rfl
  next =>
    split
    next =>
      split
      next => rfl
      next =>
        split
        next => rfl
        next =>
          split
          next => rfl
          next => exact view_reload_other h
    next => simp [Loading.view, h]

theorem view_turn_self :
    (turn env rootDirectoryPath s entry).view (entryName env rootDirectoryPath entry) =
      (s.view (entryName env rootDirectoryPath entry)).turn env rootDirectoryPath entry := by
  rw [turn_eq]
  unfold View.turn
  cases env.parseGraph rootDirectoryPath entry with
  | some graph => rfl
  | none =>
    dsimp only
    rw [if_neg (show ¬ (none : Option (Subconfig ρ)).isSome = true from Bool.false_ne_true)]
    by_cases hparsed : (env.parseNode rootDirectoryPath entry).1.ok = true
    · rw [if_pos hparsed, if_pos hparsed]
      by_cases hunsupported : unsupported env rootDirectoryPath entry = true
      · rw [if_pos hunsupported, if_pos hunsupported]
      · rw [if_neg hunsupported, if_neg hunsupported]
        by_cases hoccupied : env.servableExists (entryName env rootDirectoryPath entry) = true
        · rw [if_pos hoccupied, if_pos hoccupied]
        · rw [if_neg hoccupied, if_neg hoccupied]
          by_cases hduplicate : entryName env rootDirectoryPath entry ∈ s.modelsInConfigFile
          · rw [if_pos hduplicate, if_pos (view_inConfigFile.mpr hduplicate)]
          · rw [if_neg hduplicate, if_neg (mt view_inConfigFile.mp hduplicate)]
            exact view_reload_self { (env.parseNode rootDirectoryPath entry).2 with cacheDir := env.modelCacheDirectory }
    · rw [if_neg hparsed, if_neg hparsed]
      simp [Loading.view]

/-- Two runs that agree on a name agree on it after the same turn. -/
theorem view_turn_congr (h : s.view name = t.view name) :
    (turn env rootDirectoryPath s entry).view name = (turn env rootDirectoryPath t entry).view name := by
  by_cases hname : name = entryName env rootDirectoryPath entry
  · rw [hname, view_turn_self, view_turn_self, ← hname, h]
  · rw [view_turn_other hname, view_turn_other hname, h]

variable {entries : List ρ}

theorem view_turns_other (h : ∀ entry ∈ entries, name ≠ entryName env rootDirectoryPath entry) :
    (entries.foldl (turn env rootDirectoryPath) s).view name = s.view name := by
  induction entries generalizing s with
  | nil => rfl
  | cons entry entries ih =>
    rw [List.foldl_cons, ih fun x hx => h x (List.mem_cons_of_mem _ hx), view_turn_other (h entry List.mem_cons_self)]

theorem view_turns_congr (h : s.view name = t.view name) :
    (entries.foldl (turn env rootDirectoryPath) s).view name = (entries.foldl (turn env rootDirectoryPath) t).view name := by
  induction entries generalizing s t with
  | nil => exact h
  | cons entry entries ih => exact ih (view_turn_congr h)

/-- The entries before the one that the loop is left at. -/
def reached (env : Environment ρ γ μ) (rootDirectoryPath : String) (entries : List ρ) : List ρ :=
  entries.takeWhile fun entry => !unsupported env rootDirectoryPath entry

theorem mem_of_reached (h : entry ∈ reached env rootDirectoryPath entries) : entry ∈ entries :=
  (List.takeWhile_sublist _).subset h

theorem loadModelsFrom_state (firstErrorStatus : StatusCode) :
    (env.loadModelsFrom rootDirectoryPath entries firstErrorStatus s).2 =
      (reached env rootDirectoryPath entries).foldl (turn env rootDirectoryPath) s := by
  induction entries generalizing firstErrorStatus s with
  | nil => rfl
  | cons entry entries ih =>
    have herror : (∃ status, env.loadEntry rootDirectoryPath s entry = .error status) ↔
        unsupported env rootDirectoryPath entry = true := loadEntry_error_iff
    unfold Environment.loadModelsFrom reached
    cases hload : env.loadEntry rootDirectoryPath s entry with
    | error status =>
      rw [List.takeWhile_cons_of_neg (by simpa using herror.mp ⟨status, hload⟩)]
      rfl
    | ok loaded =>
      have hsupported : ¬ unsupported env rootDirectoryPath entry = true := by
        intro h
        obtain ⟨status, hstatus⟩ := herror.mpr h
        rw [hload] at hstatus
        cases hstatus
      rw [List.takeWhile_cons_of_pos (by simpa using hsupported), List.foldl_cons]
      have hturn : turn env rootDirectoryPath s entry = loaded.2 := by rw [turn, hload]
      rw [hturn]
      exact ih _

theorem loadModels_state : (env.loadModels rootDirectoryPath entries s).2 =
    (reached env rootDirectoryPath entries).foldl (turn env rootDirectoryPath) s :=
  loadModelsFrom_state _

section Subconfigs

variable {graphs : List (Subconfig ρ)}

/-- The graphs list no model of this name. -/
def Unlisted (env : Environment ρ γ μ) (name : String) (graphs : List (Subconfig ρ)) : Prop :=
  ∀ rootDirectoryPath entries, Subconfig.models rootDirectoryPath entries ∈ graphs →
    ∀ entry ∈ entries, name ≠ entryName env rootDirectoryPath entry

theorem view_subconfigs_congr (h : s.view name = t.view name) :
    (env.loadMediapipeSubConfigModels graphs s).view name = (env.loadMediapipeSubConfigModels graphs t).view name := by
  induction graphs generalizing s t with
  | nil => exact h
  | cons graph graphs ih =>
    cases graph with
    | missing => exact ih h
    | invalid => exact h
    | models root entries =>
      apply ih
      change (env.loadModels root entries s).2.view name = (env.loadModels root entries t).2.view name
      rw [loadModels_state, loadModels_state]
      exact view_turns_congr h

theorem view_subconfigs_other (h : Unlisted env name graphs) :
    (env.loadMediapipeSubConfigModels graphs s).view name = s.view name := by
  induction graphs generalizing s with
  | nil => rfl
  | cons graph graphs ih =>
    have hrest : Unlisted env name graphs := fun root entries hmem => h root entries (List.mem_cons_of_mem _ hmem)
    cases graph with
    | missing => exact ih hrest
    | invalid => rfl
    | models root entries =>
      unfold Environment.loadMediapipeSubConfigModels
      rw [ih hrest]
      change (env.loadModels root entries s).2.view name = _
      rw [loadModels_state]
      exact view_turns_other fun entry hentry => h root entries List.mem_cons_self entry (mem_of_reached hentry)

end Subconfigs

section Retiring

variable {manager : ModelManager γ μ} {invalid : List String} {names : List String}

/-- What the manager has of this name. -/
def ModelManager.known (manager : ModelManager γ μ) (name : String) : Option μ × List (String × Call γ) :=
  (manager.models.find? name, manager.calls.filter (·.1 = name))

/-- What a turn of the loop leaves of its own name. -/
def retired (env : Environment ρ γ μ) (invalid : List String) (name : String) (known : Option μ × List (String × Call γ)) :
    Option μ × List (String × Call γ) :=
  let model := known.1.getD (env.modelFactory name)
  if name ∈ invalid then (some (env.cleanupAllVersions model), known.2 ++ [(name, .cleanupAllVersions)])
  else (some (env.retireAllVersions model), known.2 ++ [(name, .retireAllVersions)])

theorem known_retireModel_self :
    (env.retireModel invalid manager name).known name = retired env invalid name (manager.known name) := by
  unfold Environment.retireModel retired ModelManager.known
  split
  next => rw [find?_call_self, calls_call_self]
  next => rw [find?_call_self, calls_call_self]

theorem known_retireModel_other {other : String} (h : name ≠ other) :
    (env.retireModel invalid manager other).known name = manager.known name := by
  unfold Environment.retireModel ModelManager.known
  split
  next => rw [find?_call_other h, calls_call_other h]
  next => rw [find?_call_other h, calls_call_other h]

theorem servedModelConfigs_retireModels :
    (names.foldl (env.retireModel invalid) manager).servedModelConfigs = manager.servedModelConfigs := by
  induction names generalizing manager with
  | nil => rfl
  | cons other names ih =>
    rw [List.foldl_cons, ih]
    unfold Environment.retireModel
    split
    next => rfl
    next => rfl

theorem known_retireModels_other (h : name ∉ names) :
    (names.foldl (env.retireModel invalid) manager).known name = manager.known name := by
  induction names generalizing manager with
  | nil => rfl
  | cons other names ih =>
    rw [List.mem_cons, not_or] at h
    obtain ⟨hother, hrest⟩ := h
    rw [List.foldl_cons, ih hrest, known_retireModel_other hother]

/-- The other names of the list change nothing about this one. -/
theorem known_retireModels_self (hnames : names.Nodup) (h : name ∈ names) :
    (names.foldl (env.retireModel invalid) manager).known name = retired env invalid name (manager.known name) := by
  obtain ⟨before, after, rfl⟩ := List.append_of_mem h
  obtain ⟨-, hafter, hdisjoint⟩ := List.nodup_append'.mp hnames
  have hnotBefore : name ∉ before := fun hmem => hdisjoint hmem List.mem_cons_self
  have hnotAfter : name ∉ after := (List.nodup_cons.mp hafter).1
  rw [List.foldl_append, List.foldl_cons, known_retireModels_other hnotAfter, known_retireModel_self,
    known_retireModels_other hnotBefore]

theorem known_retireModelsRemovedFromConfigFile {existing : List String} :
    (env.retireModelsRemovedFromConfigFile manager existing invalid).known name =
      if name ∈ manager.models.keys ∧ name ∉ existing then retired env invalid name (manager.known name)
      else manager.known name := by
  have hnodup : manager.models.keys.Nodup := manager.models.keys_ordered.imp fun h => ne_of_lt h
  have hmem : name ∈ manager.models.keys.filter (· ∉ existing) ↔ name ∈ manager.models.keys ∧ name ∉ existing := by
    simp
  unfold Environment.retireModelsRemovedFromConfigFile
  split
  next h => exact known_retireModels_self (hnodup.filter _) (hmem.mpr h)
  next h => exact known_retireModels_other (mt hmem.mp h)

/-- The view of a name decides what is left of its models. -/
theorem retire_view {s : Loading ρ γ μ} {manager : ModelManager γ μ}
    (hmanager : manager.known name = s.manager.known name) :
    let known := (env.retireModelsRemovedFromConfigFile manager s.modelsInConfigFile s.modelsWithInvalidConfig).known name
    (⟨known.1, s.newModelConfigs name, known.2, s.gatedModelConfigs.filter (·.name = name)⟩ : Effect γ μ) =
      (s.view name).retire env name := by
  intro known
  have hfind : manager.models.find? name = s.manager.models.find? name := congrArg Prod.fst hmanager
  have hknown : known = if name ∈ manager.models.keys ∧ name ∉ s.modelsInConfigFile
      then retired env s.modelsWithInvalidConfig name (s.manager.known name) else s.manager.known name :=
    hmanager ▸ known_retireModelsRemovedFromConfigFile
  rw [hknown]
  unfold View.retire Loading.view retired ModelManager.known
  dsimp only
  cases hmodel : s.manager.models.find? name with
  | none =>
    have hkeys : name ∉ manager.models.keys := OrderedMap.find?_eq_none_iff.mp (hfind.trans hmodel)
    simp [hkeys]
  | some model =>
    have hkeys : name ∈ manager.models.keys := OrderedMap.mem_keys_iff.mpr ⟨model, hfind.trans hmodel⟩
    by_cases hin : name ∈ s.modelsInConfigFile
    · simp [hin]
    · by_cases hinvalid : name ∈ s.modelsWithInvalidConfig
      · simp [hkeys, hin, hinvalid]
      · simp [hkeys, hin, hinvalid]

end Retiring

theorem graphs_turn (h : env.parseGraph rootDirectoryPath entry = none) :
    (turn env rootDirectoryPath s entry).mediapipesInConfigFile = s.mediapipesInConfigFile := by
  rw [turn_eq, h]
  dsimp only
  split
  next =>
    split
    next => rfl
    next =>
      split
      next => rfl
      next =>
        split
        next => rfl
        next =>
          unfold Environment.reload
          dsimp only
          split
          next => split <;> rfl
          next => rfl
  next => rfl

theorem graphs_turns (h : ∀ entry ∈ entries, env.parseGraph rootDirectoryPath entry = none) :
    (entries.foldl (turn env rootDirectoryPath) s).mediapipesInConfigFile = s.mediapipesInConfigFile := by
  induction entries generalizing s with
  | nil => rfl
  | cons entry entries ih =>
    rw [List.foldl_cons, ih fun x hx => h x (List.mem_cons_of_mem _ hx), graphs_turn (h entry List.mem_cons_self)]

section Whole

variable {graphs : List (Subconfig ρ)} {manager : ModelManager γ μ}

def start (manager : ModelManager γ μ) (graphs : List (Subconfig ρ)) : Loading ρ γ μ :=
  ⟨manager, [], [], [], fun _ => none, graphs⟩

/-- What is known about a name when all entries have been loaded. -/
def loaded (env : Environment ρ γ μ) (rootDirectoryPath : String) (graphs : List (Subconfig ρ))
    (manager : ModelManager γ μ) (entries : List ρ) (name : String) : View γ μ :=
  ((reached env rootDirectoryPath entries).foldl (turn env rootDirectoryPath) (start manager graphs)).view name

/-- Where the list holds models only, the effect on the models of a name is decided by what is known about them. -/
theorem effect_loadModelsConfig (hmodels : ∀ entry ∈ entries, env.parseGraph rootDirectoryPath entry = none) :
    effect name (env.loadModelsConfig rootDirectoryPath (some entries) graphs manager) =
      ((env.loadMediapipeSubConfigModels graphs ((reached env rootDirectoryPath entries).foldl
        (turn env rootDirectoryPath) (start manager graphs))).view name).retire env name := by
  have hgraphs : ((reached env rootDirectoryPath entries).foldl (turn env rootDirectoryPath)
      (start manager graphs)).mediapipesInConfigFile = graphs :=
    graphs_turns fun entry hentry => hmodels entry (mem_of_reached hentry)
  have hrun : (env.loadModelsConfig rootDirectoryPath (some entries) graphs manager).2 =
      let s := env.loadMediapipeSubConfigModels graphs ((reached env rootDirectoryPath entries).foldl
        (turn env rootDirectoryPath) (start manager graphs))
      (env.retireModelsRemovedFromConfigFile { s.manager with servedModelConfigs := s.newModelConfigs }
        s.modelsInConfigFile s.modelsWithInvalidConfig, s.gatedModelConfigs) := by
    unfold start at hgraphs ⊢
    unfold Environment.loadModelsConfig
    dsimp only
    rw [loadModels_state, hgraphs]
  generalize env.loadMediapipeSubConfigModels graphs _ = s at hrun ⊢
  rw [← retire_view (show ModelManager.known { s.manager with servedModelConfigs := s.newModelConfigs } name =
    s.manager.known name from rfl)]
  unfold effect
  rw [hrun]
  unfold ModelManager.known Environment.retireModelsRemovedFromConfigFile
  dsimp only
  rw [servedModelConfigs_retireModels]

end Whole

end ModelServer.ModelsConfig
