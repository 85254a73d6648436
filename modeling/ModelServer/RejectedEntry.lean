import ModelServer.ModelsConfigEffects
import Mathlib.Data.List.TakeWhile

namespace ModelServer.ModelsConfig

variable {ρ γ μ : Type} (env : Environment ρ γ μ) (rootDirectoryPath : String)

/-- The parameters of the entry are invalid. -/
def malformed (entry : ρ) : Bool := !(env.parseNode rootDirectoryPath entry).1.ok

/-- A pipeline or a mediapipe graph has the name of the entry. -/
def occupied (entry : ρ) : Bool := env.servableExists (entryName env rootDirectoryPath entry)

/-- The entry is loaded, unless another one of its name was. -/
def loads (entry : ρ) : Bool :=
  !malformed env rootDirectoryPath entry && !unsupported env rootDirectoryPath entry &&
    !occupied env rootDirectoryPath entry

/-- Why the entry is rejected where it stands after `before`, in a list with these other names. -/
inductive Rejected (before : List ρ) (otherNames : List String) (entry : ρ) : Prop
  | parameters (h : malformed env rootDirectoryPath entry = true)
      (hname : entryName env rootDirectoryPath entry ∉ otherNames)
  | pluginConfig (h : unsupported env rootDirectoryPath entry = true)
  | name (h : malformed env rootDirectoryPath entry = false) (hoccupied : occupied env rootDirectoryPath entry = true)
  | duplicate (h : malformed env rootDirectoryPath entry = false) (first : ρ) (hfirst : first ∈ before)
      (hloads : loads env rootDirectoryPath first = true)
      (hname : entryName env rootDirectoryPath first = entryName env rootDirectoryPath entry)

/-- Whether the loop gets to the entry or not makes no difference to the models of its name. -/
def Inert (manager : ModelManager γ μ) (entry : ρ) : Prop :=
  if malformed env rootDirectoryPath entry then entryName env rootDirectoryPath entry ∉ manager.models.keys
  else occupied env rootDirectoryPath entry = true

/-- A list of uniquely named models, that the graphs do not list once more. -/
structure UniquelyNamed (graphs : List (Subconfig ρ)) (entries : List ρ) : Prop where
  models : ∀ entry ∈ entries, env.parseGraph rootDirectoryPath entry = none
  names : (entries.map (entryName env rootDirectoryPath)).Nodup
  unlisted : ∀ entry ∈ entries, Unlisted env (entryName env rootDirectoryPath entry) graphs

variable {env} {rootDirectoryPath} {graphs : List (Subconfig ρ)} {manager : ModelManager γ μ}
  {s : Loading ρ γ μ} {v : View γ μ} {entry : ρ} {name : String} {entries : List ρ}

namespace View

theorem inConfigFile_reload {config : ModelConfig γ} : (v.reload env config).inConfigFile = true := by
  unfold reload
  dsimp only
  split
  next => split <;> rfl
  next => rfl

theorem calls_reload {config : ModelConfig γ} :
    (v.reload env config).calls = v.calls ++ [(config.name, Call.reloadModelWithVersions config)] := by
  unfold reload
  dsimp only
  split
  next => split <;> rfl
  next => rfl

theorem turn_idle (h : malformed env rootDirectoryPath entry = false)
    (hidle : occupied env rootDirectoryPath entry = true ∨ v.inConfigFile = true) :
    v.turn env rootDirectoryPath entry = v := by
  unfold turn
  split
  next => rfl
  next =>
    rw [if_pos (by simpa [malformed] using h)]
    split
    next => rfl
    next =>
      split
      next => rfl
      next hfree => rw [if_pos (hidle.resolve_left hfree)]

theorem turn_malformed (hmodel : env.parseGraph rootDirectoryPath entry = none)
    (h : malformed env rootDirectoryPath entry = true) :
    v.turn env rootDirectoryPath entry = { v with invalid := true } := by
  unfold turn
  rw [hmodel, if_neg (by simp), if_neg (by simpa [malformed] using h)]

theorem turn_loads (hmodel : env.parseGraph rootDirectoryPath entry = none)
    (h : loads env rootDirectoryPath entry = true) (hnew : v.inConfigFile = false) :
    v.turn env rootDirectoryPath entry =
      v.reload env { (env.parseNode rootDirectoryPath entry).2 with cacheDir := env.modelCacheDirectory } := by
  obtain ⟨⟨hvalid, hsupported⟩, hfree⟩ : (malformed env rootDirectoryPath entry = false ∧
      unsupported env rootDirectoryPath entry = false) ∧ occupied env rootDirectoryPath entry = false := by
    simpa [loads] using h
  unfold turn
  rw [hmodel, if_neg (by simp), if_pos (by simpa [malformed] using hvalid), if_neg (by simp [hsupported]),
    if_neg (by simpa [occupied] using hfree), if_neg (by simp [hnew])]

theorem inConfigFile_turn (h : v.inConfigFile = true) : (v.turn env rootDirectoryPath entry).inConfigFile = true := by
  cases hmalformed : malformed env rootDirectoryPath entry with
  | false => rwa [turn_idle hmalformed (.inr h)]
  | true =>
    cases hmodel : env.parseGraph rootDirectoryPath entry with
    | none => rwa [turn_malformed hmodel hmalformed]
    | some graph => rwa [turn, hmodel, if_pos (by simp)]

theorem inConfigFile_turn_loads (hmodel : env.parseGraph rootDirectoryPath entry = none)
    (h : loads env rootDirectoryPath entry = true) : (v.turn env rootDirectoryPath entry).inConfigFile = true := by
  cases hin : v.inConfigFile with
  | true => exact inConfigFile_turn hin
  | false =>
    rw [turn_loads hmodel h hin]
    exact inConfigFile_reload

theorem calls_retire (h : v.inConfigFile = true) : (v.retire env name).calls = v.calls := by
  unfold retire
  cases v.model with
  | none => rfl
  | some model =>
    dsimp only
    rw [if_pos h]

/-- No model is reloaded after the entries have been loaded. -/
theorem calls_retire_ne (name' : String) (config : ModelConfig γ) :
    (v.retire env name).calls ≠ v.calls ++ [(name', Call.reloadModelWithVersions config)] := by
  unfold retire
  cases v.model with
  | none => simp
  | some model =>
    dsimp only
    split
    next => simp
    next => split <;> simp

end View

theorem inConfigFile_turn (h : (s.view name).inConfigFile = true) :
    ((turn env rootDirectoryPath s entry).view name).inConfigFile = true := by
  by_cases hname : name = entryName env rootDirectoryPath entry
  · subst hname
    rw [view_turn_self]
    exact View.inConfigFile_turn h
  · rwa [view_turn_other hname]

/-- A loaded entry keeps its name taken. -/
theorem inConfigFile_turns (hmem : entry ∈ entries) (hmodel : env.parseGraph rootDirectoryPath entry = none)
    (h : loads env rootDirectoryPath entry = true) :
    ((entries.foldl (turn env rootDirectoryPath) s).view (entryName env rootDirectoryPath entry)).inConfigFile = true := by
  obtain ⟨before, after, rfl⟩ := List.append_of_mem hmem
  rw [List.foldl_append, List.foldl_cons]
  refine List.foldlRecOn (motive := fun s : Loading ρ γ μ =>
    (s.view (entryName env rootDirectoryPath entry)).inConfigFile = true) after _ ?_ fun _ hs _ _ => inConfigFile_turn hs
  rw [view_turn_self]
  exact View.inConfigFile_turn_loads hmodel h

/-- A rejected entry leaves the models of other names alone. -/
theorem Rejected.view_turn {before : List ρ} {otherNames : List String}
    (h : Rejected env rootDirectoryPath before otherNames entry)
    (hbefore : ∀ x ∈ before, env.parseGraph rootDirectoryPath x = none)
    (hsupported : unsupported env rootDirectoryPath entry = false)
    (hname : name = entryName env rootDirectoryPath entry → name ∈ otherNames) :
    (turn env rootDirectoryPath (before.foldl (turn env rootDirectoryPath) s) entry).view name =
      (before.foldl (turn env rootDirectoryPath) s).view name := by
  by_cases hother : name = entryName env rootDirectoryPath entry
  · subst hother
    rw [view_turn_self]
    cases h with
    | parameters h hnew => exact absurd (hname rfl) hnew
    | pluginConfig h => rw [hsupported] at h; cases h
    | name h hoccupied => exact View.turn_idle h (.inl hoccupied)
    | duplicate h first hfirst hloads hsame =>
      exact View.turn_idle h (.inr (hsame ▸ inConfigFile_turns hfirst (hbefore first hfirst) hloads))
  · exact view_turn_other hother

/-- Of uniquely named entries, each shows in the models of its own name only. -/
theorem view_turns_self (hnames : (entries.map (entryName env rootDirectoryPath)).Nodup) (h : entry ∈ entries) :
    (entries.foldl (turn env rootDirectoryPath) s).view (entryName env rootDirectoryPath entry) =
      (s.view (entryName env rootDirectoryPath entry)).turn env rootDirectoryPath entry := by
  obtain ⟨before, after, rfl⟩ := List.append_of_mem h
  rw [List.map_append, List.map_cons] at hnames
  obtain ⟨-, hafter, hdisjoint⟩ := List.nodup_append'.mp hnames
  have hnotBefore : ∀ x ∈ before, entryName env rootDirectoryPath entry ≠ entryName env rootDirectoryPath x :=
    fun x hx heq => hdisjoint (List.mem_map_of_mem hx) (heq ▸ List.mem_cons_self)
  have hnotAfter : ∀ x ∈ after, entryName env rootDirectoryPath entry ≠ entryName env rootDirectoryPath x :=
    fun x hx heq => (List.nodup_cons.mp hafter).1 (heq ▸ List.mem_map_of_mem hx)
  rw [List.foldl_append, List.foldl_cons, view_turns_other hnotAfter, view_turn_self, view_turns_other hnotBefore]

/-- The effect on a name that the graphs do not list is decided by the entries of the list. -/
theorem effect_unlisted (hmodels : ∀ entry ∈ entries, env.parseGraph rootDirectoryPath entry = none)
    (hunlisted : Unlisted env name graphs) :
    effect name (env.loadModelsConfig rootDirectoryPath (some entries) graphs manager) =
      (((reached env rootDirectoryPath entries).foldl (turn env rootDirectoryPath) (start manager graphs)).view
        name).retire env name := by
  rw [effect_loadModelsConfig hmodels, view_subconfigs_other hunlisted]

/-- Runs over two lists have the same effect on a name if the same is known about it when their entries are loaded. -/
theorem effect_congr {entries' : List ρ}
    (hmodels : ∀ entry ∈ entries, env.parseGraph rootDirectoryPath entry = none)
    (hmodels' : ∀ entry ∈ entries', env.parseGraph rootDirectoryPath entry = none)
    (h : ((reached env rootDirectoryPath entries).foldl (turn env rootDirectoryPath) (start manager graphs)).view name =
      ((reached env rootDirectoryPath entries').foldl (turn env rootDirectoryPath) (start manager graphs)).view name) :
    effect name (env.loadModelsConfig rootDirectoryPath (some entries) graphs manager) =
      effect name (env.loadModelsConfig rootDirectoryPath (some entries') graphs manager) := by
  rw [effect_loadModelsConfig hmodels, effect_loadModelsConfig hmodels', view_subconfigs_congr h]

/-- An entry's own turn shows in the effect, unless the entry is inert. -/
theorem retire_turn_iff (hmodel : env.parseGraph rootDirectoryPath entry = none)
    (hsupported : unsupported env rootDirectoryPath entry = false) :
    ((((start manager graphs).view (entryName env rootDirectoryPath entry)).turn env rootDirectoryPath entry).retire env
        (entryName env rootDirectoryPath entry) =
      ((start manager graphs).view (entryName env rootDirectoryPath entry)).retire env
        (entryName env rootDirectoryPath entry)) ↔ Inert env rootDirectoryPath manager entry := by
  unfold Inert
  split
  next hmalformed =>
    rw [View.turn_malformed hmodel hmalformed, ← OrderedMap.find?_eq_none_iff]
    unfold start Loading.view View.retire
    dsimp only
    cases hfind : manager.models.find? (entryName env rootDirectoryPath entry) with
    | none => simp
    | some model => simp
  next hvalid =>
    have hvalid : malformed env rootDirectoryPath entry = false := by simpa using hvalid
    cases hoccupied : occupied env rootDirectoryPath entry with
    | true => simp [View.turn_idle hvalid (.inl hoccupied)]
    | false =>
      have hloads : loads env rootDirectoryPath entry = true := by simp [loads, hvalid, hsupported, hoccupied]
      refine iff_of_false ?_ Bool.false_ne_true
      intro hsame
      rw [View.turn_loads hmodel hloads (by simp [start, Loading.view])] at hsame
      apply View.calls_retire_ne (v := (start manager graphs).view _) _ _
      rw [← hsame, View.calls_retire View.inConfigFile_reload, View.calls_reload]

section Replaced

variable {before after : List ρ} {middle replacement : ρ}

theorem models_of_middle (hlist : UniquelyNamed env rootDirectoryPath graphs (before ++ after))
    (hmiddle : env.parseGraph rootDirectoryPath middle = none) :
    ∀ entry ∈ before ++ middle :: after, env.parseGraph rootDirectoryPath entry = none := by
  intro entry hentry
  rw [List.mem_append, List.mem_cons] at hentry
  obtain h | rfl | h := hentry
  · exact hlist.models entry (List.mem_append_left _ h)
  · exact hmiddle
  · exact hlist.models entry (List.mem_append_right _ h)

theorem reached_stopped (h : ∃ x ∈ before, unsupported env rootDirectoryPath x = true) (rest : List ρ) :
    reached env rootDirectoryPath (before ++ rest) = reached env rootDirectoryPath before := by
  obtain ⟨x, hx, hunsupported⟩ := h
  rw [reached, List.takeWhile_append, if_neg]
  · rfl
  · intro hall
    have hwhole := List.takeWhile_eq_self_iff.mp ((List.takeWhile_prefix _).eq_of_length hall) x hx
    rw [hunsupported] at hwhole
    cases hwhole

theorem reached_unsupported (hbefore : ∀ x ∈ before, unsupported env rootDirectoryPath x = false)
    (h : unsupported env rootDirectoryPath middle = true) :
    reached env rootDirectoryPath (before ++ middle :: after) = before := by
  rw [reached, List.takeWhile_append_of_pos (by simpa using hbefore), List.takeWhile_cons_of_neg (by simp [h]),
    List.append_nil]

theorem reached_supported (hbefore : ∀ x ∈ before, unsupported env rootDirectoryPath x = false)
    (h : unsupported env rootDirectoryPath middle = false) :
    reached env rootDirectoryPath (before ++ middle :: after) =
      before ++ middle :: reached env rootDirectoryPath after := by
  rw [reached, List.takeWhile_append_of_pos (by simpa using hbefore), List.takeWhile_cons_of_pos (by simp [h])]
  rfl

section Passed

variable {Other : String → Prop} (hbefore : ∀ x ∈ before, unsupported env rootDirectoryPath x = false)
  (hstops : unsupported env rootDirectoryPath middle = true)
  (hpasses : unsupported env rootDirectoryPath replacement = false)
  (hlist : UniquelyNamed env rootDirectoryPath graphs (before ++ after))
  (hmiddle : env.parseGraph rootDirectoryPath middle = none)
  (hreplacement : env.parseGraph rootDirectoryPath replacement = none)
  (hturn : ∀ name, Other name →
    (turn env rootDirectoryPath (before.foldl (turn env rootDirectoryPath) (start manager graphs)) replacement).view name =
      (before.foldl (turn env rootDirectoryPath) (start manager graphs)).view name)
include hbefore hstops hpasses hlist hmiddle hreplacement hturn

/-- An entry that only one of the two runs gets to is treated alike by both just if it is inert. -/
theorem passed_entry_iff (hentry : entry ∈ reached env rootDirectoryPath after)
    (hother : Other (entryName env rootDirectoryPath entry)) :
    effect (entryName env rootDirectoryPath entry)
        (env.loadModelsConfig rootDirectoryPath (some (before ++ replacement :: after)) graphs manager) =
      effect (entryName env rootDirectoryPath entry)
        (env.loadModelsConfig rootDirectoryPath (some (before ++ middle :: after)) graphs manager) ↔
      Inert env rootDirectoryPath manager entry := by
  have hafter : entry ∈ after := mem_of_reached hentry
  have hin : entry ∈ before ++ after := List.mem_append_right _ hafter
  have hnames := hlist.names
  rw [List.map_append] at hnames
  obtain ⟨-, hnamesAfter, hdisjoint⟩ := List.nodup_append'.mp hnames
  have hnotBefore : ∀ x ∈ before, entryName env rootDirectoryPath entry ≠ entryName env rootDirectoryPath x :=
    fun x hx heq => hdisjoint (List.mem_map_of_mem hx) (heq ▸ List.mem_map_of_mem hafter)
  have hnamesReached : ((reached env rootDirectoryPath after).map (entryName env rootDirectoryPath)).Nodup :=
    hnamesAfter.sublist ((List.takeWhile_sublist _).map _)
  have hsupported : unsupported env rootDirectoryPath entry = false := by
    simpa using List.mem_takeWhile_imp hentry
  rw [effect_unlisted (models_of_middle hlist hreplacement) (hlist.unlisted entry hin),
    effect_unlisted (models_of_middle hlist hmiddle) (hlist.unlisted entry hin),
    reached_supported hbefore hpasses, reached_unsupported hbefore hstops, List.foldl_append, List.foldl_cons,
    view_turns_congr (hturn _ hother), view_turns_self hnamesReached hentry, view_turns_other hnotBefore]
  exact retire_turn_iff (hlist.models entry hin) hsupported

theorem passed_iff (hother : ∀ x ∈ after, Other (entryName env rootDirectoryPath x)) :
    (∀ name, Other name →
      effect name (env.loadModelsConfig rootDirectoryPath (some (before ++ replacement :: after)) graphs manager) =
        effect name (env.loadModelsConfig rootDirectoryPath (some (before ++ middle :: after)) graphs manager)) ↔
      ∀ x ∈ reached env rootDirectoryPath after, Inert env rootDirectoryPath manager x := by
  have hentry := fun x hx =>
    passed_entry_iff hbefore hstops hpasses hlist hmiddle hreplacement hturn hx (hother x (mem_of_reached hx))
  constructor
  · intro h x hx
    exact (hentry x hx).mp (h _ (hother x (mem_of_reached hx)))
  · intro h name hname
    by_cases hreached : ∃ x ∈ reached env rootDirectoryPath after, name = entryName env rootDirectoryPath x
    · obtain ⟨x, hx, rfl⟩ := hreached
      exact (hentry x hx).mpr (h x hx)
    · push Not at hreached
      apply effect_congr (models_of_middle hlist hreplacement) (models_of_middle hlist hmiddle)
      rw [reached_supported hbefore hpasses, reached_unsupported hbefore hstops, List.foldl_append, List.foldl_cons,
        view_turns_other hreached, hturn name hname]

end Passed

variable {entry : ρ}

theorem UniquelyNamed.others (h : UniquelyNamed env rootDirectoryPath graphs (before ++ entry :: after)) :
    UniquelyNamed env rootDirectoryPath graphs (before ++ after) := by
  have hsublist : List.Sublist (before ++ after) (before ++ entry :: after) :=
    (List.sublist_cons_self entry after).append_left before
  exact {
    models := fun x hx => h.models x (hsublist.subset hx)
    names := h.names.sublist (hsublist.map _)
    unlisted := fun x hx => h.unlisted x (hsublist.subset hx) }

theorem UniquelyNamed.ne (h : UniquelyNamed env rootDirectoryPath graphs (before ++ entry :: after)) :
    ∀ x ∈ before ++ after, entryName env rootDirectoryPath x ≠ entryName env rootDirectoryPath entry := by
  intro x hx heq
  have hperm : List.Perm (before ++ entry :: after) (entry :: (before ++ after)) := List.perm_middle
  have hnames := (hperm.map (entryName env rootDirectoryPath)).nodup_iff.mp h.names
  exact (List.nodup_cons.mp hnames).1 (heq ▸ List.mem_map_of_mem hx)

/-- The name of another model: no entry had it that was replaced, and the replacement has it only beside another entry. -/
def OtherName (env : Environment ρ γ μ) (rootDirectoryPath : String) (others : List ρ) (entry replacement : ρ)
    (name : String) : Prop :=
  name ≠ entryName env rootDirectoryPath entry ∧ (name = entryName env rootDirectoryPath replacement →
    name ∈ others.map (entryName env rootDirectoryPath))

end Replaced

section Sample

/-- Entries are a name, the status of parsing and the status of the plugin configuration; a model counts its reloads. -/
def sample : Environment (String × StatusCode × StatusCode) StatusCode Nat where
  parseGraph _ _ := none
  parseNode _ entry := (entry.2.1, ⟨entry.1, "", entry.2.2⟩)
  validatePluginConfiguration config := config.parameters
  modelCacheDirectory := "/opt/cache"
  servableExists _ := false
  modelFactory _ := 0
  reloadModelWithVersions _ model := (.OK, model + 1)
  retireAllVersions _ := 0
  cleanupAllVersions _ := 0

/-- The manager that serves `face` and `resnet`. -/
def serving : ModelManager StatusCode Nat where
  models := (OrderedMap.empty.emplace "face" 1).emplace "resnet" 1
  servedModelConfigs name := if name ∈ ["face", "resnet"] then some ⟨name, "/opt/cache", .OK⟩ else none
  calls := []

end Sample

end ModelServer.ModelsConfig
