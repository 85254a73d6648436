import ModelServer.PipelineFactory

namespace ModelServer.PipelineFactory

open PipelineUnloadGuard (PipelineDefinitionStateCode StatusEvent)
open Runs Subscriptions CheckedSteps

variable {γ ε κ ν : Type}

namespace ModelManager

/-- What the named definition remembers to have subscribed to. -/
def subscriptions (s : ModelManager γ κ) (name : String) : List Reference :=
  (s.definitions.find? name).elim [] fun definition => definition.subscriptions

variable (configurations : Configurations γ κ ν)

/-- The definition is subscribed to all that its DL nodes refer to, and no news of these is on its way. -/
def Told (pending : Reference → Prop) (definition : PipelineDefinition κ) : Prop :=
  ∀ config, definition.config = some config → ∀ reference ∈ configurations.references config,
    reference ∈ definition.subscriptions ∧ ¬ pending reference

/-- The nodes of the definition are valid at this moment. -/
def Valid (s : ModelManager γ κ) (definition : PipelineDefinition κ) : Prop :=
  s.validateNodes configurations definition = .ok ()

/-- The status of a definition says what the validation would say now, unless it requires one. -/
def Follows (pending : Reference → Prop) (s : ModelManager γ κ) (definition : PipelineDefinition κ) : Prop :=
  match definition.status with
  | .AVAILABLE => Told configurations pending definition → s.Valid configurations definition
  | .LOADING_PRECONDITION_FAILED => Told configurations pending definition → ¬ s.Valid configurations definition
  | .AVAILABLE_REQUIRED_REVALIDATION | .LOADING_PRECONDITION_FAILED_REQUIRED_REVALIDATION => True
  | .RETIRED => definition.config = none ∧ definition.subscriptions = []
  | .BEGIN | .RELOADING => False

/-- Between two actions: who is subscribed is known on both sides, no name is served twice, and the definitions follow
the models, up to the news that are on their way. -/
structure Consistent (pending : Reference → Prop) (s : ModelManager γ κ) : Prop where
  agree : Agree s.subscribers s.subscriptions
  present : ∀ name, ∀ reference ∈ s.subscriptions name, s.isPresent reference = true
  free : ∀ name ∈ s.definitions.keys, s.models name = none ∧ name ∉ s.graphs
  follows : ∀ name definition, s.definitions.find? name = some definition → s.Follows configurations pending definition

/-- Nothing is on its way. -/
def Quiet (_ : Reference) : Prop := False

variable {configurations} {pending : Reference → Prop} {s t : ModelManager γ κ} {name : String}
  {definition : PipelineDefinition κ}

theorem isPresent_iff {reference : Reference} : s.isPresent reference = true ↔
    ∃ model, s.models reference.1 = some model ∧ model.Registered reference.2 := by
  unfold isPresent
  cases s.models reference.1 with
  | none => exact iff_of_false nofun fun ⟨_, h, _⟩ => by cases h
  | some model =>
    rw [Option.any_some, decide_eq_true_iff]
    exact ⟨fun h => ⟨model, rfl, h⟩, fun ⟨_, h, hregistered⟩ => by cases h; exact hregistered⟩

variable (configurations) in
theorem Consistent.initial : Consistent configurations Quiet (initial : ModelManager γ κ) where
  agree := agree_empty
  present _ _ h := nomatch h
  free _ h := nomatch h
  follows _ _ h := nomatch h

/-- A definition is put in its place, with what its name is subscribed to. -/
theorem Consistent.place {subscribers : Reference → List String} {definitions : OrderedMap String (PipelineDefinition κ)}
    (h : Consistent configurations pending s)
    (hfind : ∀ other, definitions.find? other = if other = name then some definition else s.definitions.find? other)
    (hagree : Agree subscribers (Function.update s.subscriptions name definition.subscriptions))
    (hpresent : ∀ reference ∈ definition.subscriptions, s.isPresent reference = true)
    (hfree : s.models name = none ∧ name ∉ s.graphs) (hfollows : s.Follows configurations pending definition) :
    Consistent configurations pending { s with subscribers, definitions } := by
  have hsubscriptions : subscriptions { s with subscribers, definitions } =
      Function.update s.subscriptions name definition.subscriptions := by
    funext other
    unfold subscriptions
    rw [hfind, Function.update_apply]
    split
    next => rfl
    next => rfl
  refine ⟨hsubscriptions ▸ hagree, ?_, ?_, ?_⟩
  · intro other reference hmem
    rw [hsubscriptions, Function.update_apply] at hmem
    split at hmem
    next => exact hpresent reference hmem
    next => exact h.present other reference hmem
  · intro other hmem
    obtain ⟨found, hfound⟩ := OrderedMap.mem_keys_iff.mp hmem
    rw [hfind] at hfound
    split at hfound
    next heq => exact heq ▸ hfree
    next => exact h.free other (OrderedMap.mem_keys_iff.mpr ⟨found, hfound⟩)
  · intro other found hfound
    change definitions.find? other = some found at hfound
    rw [hfind] at hfound
    split at hfound
    next =>
      cases Option.some.inj hfound
      exact hfollows
    next => exact h.follows other found hfound

variable (name definition) in
theorem makeSubscriptions_agree {subscriptions : String → List Reference} (references : List Reference)
    (hagree : Agree s.subscribers (Function.update subscriptions name definition.subscriptions)) :
    ∃ subscribers made, makeSubscriptions name references s definition =
        some ({ s with subscribers }, { definition with subscriptions := made }) ∧
      Agree subscribers (Function.update subscriptions name made) ∧
      ∀ reference ∈ made, reference ∈ definition.subscriptions ∨ s.isPresent reference = true := by
  induction references generalizing s definition with
  | nil => exact ⟨s.subscribers, definition.subscriptions, rfl, hagree, fun _ h => .inl h⟩
  | cons reference rest ih =>
    unfold makeSubscriptions subscribeToModel
    split
    next => exact ih definition hagree
    next hnew =>
      split
      next hpresent =>
        rw [← Function.update_self name definition.subscriptions subscriptions] at hnew
        obtain ⟨between, hbetween, hagree⟩ := hagree.subscribe hnew
        rw [Function.update_idem, Function.update_self] at hagree
        obtain ⟨subscribers, made, hmade, hagree, hfrom⟩ :=
          ih { definition with subscriptions := reference :: definition.subscriptions }
            (s := { s with subscribers := between }) hagree
        refine ⟨subscribers, made, ?_, hagree, ?_⟩
        · rw [hbetween]
          exact hmade
        · intro other hmem
          obtain hmem | hother := hfrom other hmem
          · obtain rfl | hmem := List.mem_cons.mp hmem
            · exact .inr hpresent
            · exact .inl hmem
          · exact .inr hother
      next => exact ih definition hagree

variable (definition) in
theorem resetSubscriptions_agree {subscriptions : String → List Reference}
    (hagree : Agree s.subscribers (Function.update subscriptions name definition.subscriptions))
    (hpresent : ∀ reference ∈ definition.subscriptions, s.isPresent reference = true) :
    ∃ subscribers, s.resetSubscriptions name definition =
        some ({ s with subscribers }, { definition with subscriptions := [] }) ∧
      Agree subscribers (Function.update subscriptions name []) := by
  have hfold : ∀ (references : List Reference) (s : ModelManager γ κ),
      (∀ reference ∈ references, s.isPresent reference = true) →
      references.foldlM (fun (s : ModelManager γ κ) reference => s.unsubscribeFromModel name reference) s =
        (references.foldlM (unsubscribe · · name) s.subscribers).map fun subscribers => { s with subscribers } := by
    intro references
    induction references with
    | nil => exact fun _ _ => rfl
    | cons reference rest ih =>
      intro s hpresent
      obtain ⟨hfirst, hrest⟩ := List.forall_mem_cons.mp hpresent
      rw [List.foldlM_cons, List.foldlM_cons, unsubscribeFromModel, if_pos hfirst]
      cases unsubscribe s.subscribers reference name with
      | none => rfl
      | some between => exact ih { s with subscribers := between } hrest
  obtain ⟨subscribers, hall, hagree⟩ := hagree.unsubscribeAll name
  rw [Function.update_self] at hall
  rw [Function.update_idem] at hagree
  refine ⟨subscribers, ?_, hagree⟩
  rw [resetSubscriptions, hfold _ s hpresent, hall]
  rfl

/-- The status after a validation. -/
def verdict : Except ν Unit → PipelineDefinitionStateCode
  | .ok _ => .AVAILABLE
  | .error _ => .LOADING_PRECONDITION_FAILED

/-- The status may be notified of the end of a validation. -/
def Awaits (status : PipelineDefinitionStateCode) : Prop :=
  status.handle .ValidationPassedEvent = some .AVAILABLE ∧
    status.handle .ValidationFailedEvent = some .LOADING_PRECONDITION_FAILED

theorem awaits_of_required {status : PipelineDefinitionStateCode} (h : isRevalidationRequired status = true) :
    Awaits status := by
  cases status <;> first | exact ⟨rfl, rfl⟩ | cases h

variable (configurations definition) in
theorem validate_free (hfree : s.models name = none ∧ name ∉ s.graphs) (hawaits : Awaits definition.status) :
    ∃ result, s.validate configurations name definition =
        some (result, { definition with status := verdict (s.validateNodes configurations definition) }) ∧
      result ≠ .PIPELINE_NAME_OCCUPIED := by
  have hmodel : ¬ s.modelExists name = true := by
    unfold modelExists
    rw [hfree.1]
    nofun
  unfold validate
  rw [if_neg (not_or.mpr ⟨hmodel, hfree.2⟩)]
  cases s.validateNodes configurations definition with
  | ok _ =>
    refine ⟨.OK, ?_, nofun⟩
    change (definition.status.handle .ValidationPassedEvent).map _ = _
    rw [hawaits.1]
    rfl
  | error error =>
    refine ⟨.invalid error, ?_, nofun⟩
    change (definition.status.handle .ValidationFailedEvent).map _ = _
    rw [hawaits.2]
    rfl

variable (configurations definition) in
theorem validate_occupied (h : s.modelExists name = true ∨ name ∈ s.graphs) (hawaits : Awaits definition.status) :
    s.validate configurations name definition =
      some (.PIPELINE_NAME_OCCUPIED, { definition with status := .LOADING_PRECONDITION_FAILED }) := by
  unfold validate
  rw [if_pos h, hawaits.2]
  rfl

/-- The status is what the validation would say now. -/
def Fresh (configurations : Configurations γ κ ν) (s : ModelManager γ κ) (definition : PipelineDefinition κ) : Prop :=
  definition.status = verdict (s.validateNodes configurations definition)

theorem Fresh.follows (h : Fresh configurations s definition) : s.Follows configurations pending definition := by
  unfold Fresh verdict at h
  unfold Follows Valid
  split at h
  next hok =>
    rw [h]
    exact fun _ => hok
  next hfailed =>
    rw [h]
    intro _ hok
    rw [hok] at hfailed
    cases hfailed

theorem subscriptions_of_find (hfound : s.definitions.find? name = some definition) :
    s.subscriptions name = definition.subscriptions := by
  unfold subscriptions
  rw [hfound]
  rfl

theorem Consistent.agree_of_find (h : Consistent configurations pending s)
    (hfound : s.definitions.find? name = some definition) :
    Agree s.subscribers (Function.update s.subscriptions name definition.subscriptions) := by
  rw [← subscriptions_of_find hfound, Function.update_eq_self]
  exact h.agree

theorem Consistent.present_of_find (h : Consistent configurations pending s)
    (hfound : s.definitions.find? name = some definition) :
    ∀ reference ∈ definition.subscriptions, s.isPresent reference = true :=
  subscriptions_of_find hfound ▸ h.present name

theorem Consistent.free_of_find (h : Consistent configurations pending s)
    (hfound : s.definitions.find? name = some definition) : s.models name = none ∧ name ∉ s.graphs :=
  h.free name (OrderedMap.mem_keys_iff.mpr ⟨definition, hfound⟩)

theorem find?_replaced (hfound : s.definitions.find? name = some definition) (f : PipelineDefinition κ → PipelineDefinition κ)
    (other : String) : (s.definitions.modify name f).find? other =
      if other = name then some (f definition) else s.definitions.find? other := by
  rw [OrderedMap.find?_modify]
  split
  next heq => rw [heq, hfound]; rfl
  next => rfl

variable (configurations) in
/-- The named definition was created or reloaded with this configuration, unless another servable has its name. -/
structure Loads (s t : ModelManager γ κ) (name : String) (config : κ) : Prop where
  consistent : Consistent configurations Quiet t
  models : t.models = s.models
  graphs : t.graphs = s.graphs
  others : ∀ other, other ≠ name → t.definitions.find? other = s.definitions.find? other
  loaded : ∀ definition, t.definitions.find? name = some definition →
    definition.config = some config ∧ Fresh configurations t definition
  found : s.models name = none → name ∉ s.graphs → ∃ definition, t.definitions.find? name = some definition

variable (definition) in
/-- A validated definition is put in its place. -/
theorem Consistent.loads {subscribers : Reference → List String} {definitions : OrderedMap String (PipelineDefinition κ)}
    (config : κ) (h : Consistent configurations Quiet s)
    (hfind : ∀ other, definitions.find? other = if other = name then some definition else s.definitions.find? other)
    (hagree : Agree subscribers (Function.update s.subscriptions name definition.subscriptions))
    (hpresent : ∀ reference ∈ definition.subscriptions, s.isPresent reference = true)
    (hfree : s.models name = none ∧ name ∉ s.graphs) (hconfig : definition.config = some config)
    (hfresh : Fresh configurations s definition) :
    Loads configurations s { s with subscribers, definitions } name config where
  consistent := h.place hfind hagree hpresent hfree hfresh.follows
  models := rfl
  graphs := rfl
  others other hother := (hfind other).trans (if_neg hother)
  loaded found hfound := by
    have hplaced := (hfind name).trans (if_pos rfl)
    cases Option.some.inj (hplaced.symm.trans hfound)
    exact ⟨hconfig, hfresh⟩
  found _ _ := ⟨definition, (hfind name).trans (if_pos rfl)⟩

theorem Consistent.createDefinition {config : κ} (h : Consistent configurations Quiet s)
    (hnew : s.definitionExists name = false) :
    ∃ result t, s.createDefinition configurations name config = some (result, t) ∧ Loads configurations s t name config := by
  have hnone : s.definitions.find? name = none := by
    unfold definitionExists at hnew
    rwa [Option.isSome_eq_false_iff, Option.isNone_iff_eq_none] at hnew
  have hunsubscribed : Function.update s.subscriptions name [] = s.subscriptions := by
    rw [← Function.update_eq_self name s.subscriptions, Function.update_idem]
    unfold subscriptions
    rw [hnone]
    rfl
  obtain ⟨subscribers, made, hmade, hagree, hfrom⟩ := makeSubscriptions_agree (s := s) name
    ⟨.BEGIN, some config, []⟩ (configurations.references config) (hunsubscribed.symm ▸ h.agree)
  have hpresent : ∀ reference ∈ made, s.isPresent reference = true :=
    fun reference hmem => (hfrom reference hmem).resolve_left List.not_mem_nil
  unfold ModelManager.createDefinition
  rw [if_neg (Bool.eq_false_iff.mp hnew), hmade, Option.bind_some]
  by_cases hoccupied : s.modelExists name = true ∨ name ∈ s.graphs
  · have hvalidate := validate_occupied configurations ⟨.BEGIN, some config, made⟩
      (s := { s with subscribers }) hoccupied ⟨rfl, rfl⟩
    obtain ⟨left, hreset, hagree⟩ := resetSubscriptions_agree
      ⟨.LOADING_PRECONDITION_FAILED, some config, made⟩ (s := { s with subscribers }) hagree hpresent
    refine ⟨.PIPELINE_NAME_OCCUPIED, { s with subscribers := left }, ?_, ?_⟩
    · dsimp only
      rw [hvalidate, Option.bind_some]
      dsimp only
      rw [hreset]
      rfl
    · refine ⟨⟨hunsubscribed ▸ hagree, h.present, h.free, h.follows⟩, rfl, rfl, fun _ _ => rfl, ?_, ?_⟩
      · intro definition hfound
        cases hnone.symm.trans hfound
      · intro hmodel hgraph
        refine absurd hoccupied (not_or.mpr ⟨?_, hgraph⟩)
        unfold modelExists
        rw [hmodel]
        nofun
  · obtain ⟨hmodel, hgraph⟩ := not_or.mp hoccupied
    have hfree : s.models name = none ∧ name ∉ s.graphs := by
      unfold modelExists at hmodel
      exact ⟨Option.not_isSome_iff_eq_none.mp hmodel, hgraph⟩
    obtain ⟨result, hvalidate, hresult⟩ := validate_free configurations ⟨.BEGIN, some config, made⟩
      (s := { s with subscribers }) hfree ⟨rfl, rfl⟩
    let validated : PipelineDefinition κ :=
      ⟨verdict (validateNodes { s with subscribers } configurations ⟨.BEGIN, some config, made⟩), some config, made⟩
    have hloads := h.loads validated config (fun other => OrderedMap.find?_assign) hagree hpresent hfree rfl rfl
    refine ⟨result, _, ?_, hloads⟩
    dsimp only
    rw [hvalidate, Option.bind_some]
    dsimp only
    split
    next => exact absurd rfl hresult
    next => rfl

theorem Consistent.reload {config : κ} (h : Consistent configurations Quiet s)
    (hfound : s.definitions.find? name = some definition) :
    ∃ result t, s.reload configurations name definition config = some (result, t) ∧
      Loads configurations s t name config := by
  have hreload : definition.status.handle .ReloadEvent = some .RELOADING := by
    have hfollows := h.follows name definition hfound
    unfold Follows at hfollows
    cases hstatus : definition.status <;> rw [hstatus] at hfollows <;> first | rfl | exact hfollows.elim
  have hagree := h.agree_of_find hfound
  have hbefore := h.present_of_find hfound
  obtain ⟨left, hreset, hagree⟩ := resetSubscriptions_agree { definition with status := .RELOADING } hagree hbefore
  obtain ⟨subscribers, made, hmade, hagree, hfrom⟩ := makeSubscriptions_agree name ⟨.RELOADING, some config, []⟩
    (s := { s with subscribers := left }) (configurations.references config) hagree
  have hpresent : ∀ reference ∈ made, s.isPresent reference = true :=
    fun reference hmem => (hfrom reference hmem).resolve_left List.not_mem_nil
  obtain ⟨result, hvalidate, -⟩ := validate_free configurations ⟨.RELOADING, some config, made⟩
    (s := { s with subscribers }) (h.free_of_find hfound) ⟨rfl, rfl⟩
  let validated : PipelineDefinition κ :=
    ⟨verdict (validateNodes { s with subscribers } configurations ⟨.RELOADING, some config, made⟩), some config, made⟩
  have hloads := h.loads validated config (find?_replaced hfound fun _ => validated) hagree hpresent
    (h.free_of_find hfound) rfl rfl
  refine ⟨result, _, ?_, hloads⟩
  unfold ModelManager.reload
  rw [hreload, Option.bind_some, hreset, Option.bind_some]
  dsimp only
  rw [hmade, Option.bind_some]
  dsimp only
  rw [hvalidate]
  rfl

theorem Consistent.retire (h : Consistent configurations Quiet s) (hfound : s.definitions.find? name = some definition)
    (hactive : definition.status ≠ .RETIRED) :
    ∃ subscribers, s.retire name definition =
        some { s with subscribers, definitions := s.definitions.modify name fun _ => ⟨.RETIRED, none, []⟩ } ∧
      Consistent configurations Quiet
        { s with subscribers, definitions := s.definitions.modify name fun _ => ⟨.RETIRED, none, []⟩ } := by
  have hretire : definition.status.handle .RetireEvent = some .RETIRED := by
    have hfollows := h.follows name definition hfound
    unfold Follows at hfollows
    cases hstatus : definition.status <;> rw [hstatus] at hfollows <;>
      first | rfl | exact hfollows.elim | exact absurd hstatus hactive
  obtain ⟨subscribers, hreset, hagree⟩ := resetSubscriptions_agree definition (h.agree_of_find hfound)
    (h.present_of_find hfound)
  refine ⟨subscribers, ?_, ?_⟩
  · unfold ModelManager.retire
    rw [hreset, Option.bind_some]
    dsimp only
    rw [hretire]
    rfl
  · exact h.place (find?_replaced hfound fun _ => ⟨.RETIRED, none, []⟩) hagree nofun (h.free_of_find hfound) ⟨rfl, rfl⟩

/-- Less is told where more is pending. -/
theorem Follows.congr {expected : Reference → Prop} (h : s.Follows configurations pending definition)
    (htold : Told configurations expected definition → Told configurations pending definition ∧
      t.validateNodes configurations definition = s.validateNodes configurations definition) :
    t.Follows configurations expected definition := by
  unfold Follows Valid at h ⊢
  cases hstatus : definition.status with
  | AVAILABLE =>
    rw [hstatus] at h
    intro hexpected
    obtain ⟨hpending, hsame⟩ := htold hexpected
    exact hsame.trans (h hpending)
  | LOADING_PRECONDITION_FAILED =>
    rw [hstatus] at h
    intro hexpected
    obtain ⟨hpending, hsame⟩ := htold hexpected
    exact hsame ▸ h hpending
  | _ => rwa [hstatus] at h

theorem Consistent.mono {expected : Reference → Prop} (h : Consistent configurations pending s)
    (hmore : ∀ reference, pending reference → expected reference) : Consistent configurations expected s where
  agree := h.agree
  present := h.present
  free := h.free
  follows name definition hfound := (h.follows name definition hfound).congr fun htold => by
    refine ⟨fun config hconfig reference hmem => ?_, rfl⟩
    obtain ⟨hsubscribed, hquiet⟩ := htold config hconfig reference hmem
    exact ⟨hsubscribed, fun hpending => hquiet (hmore reference hpending)⟩

theorem validateNodes_congr (h : ∀ config, definition.config = some config →
      ∀ reference ∈ configurations.references config, t.getModelInstance reference = s.getModelInstance reference) :
    t.validateNodes configurations definition = s.validateNodes configurations definition := by
  unfold validateNodes
  cases hconfig : definition.config with
  | none => rfl
  | some config =>
    change configurations.validateNodes config _ = configurations.validateNodes config _
    rw [List.map_congr_left (h config hconfig)]

/-- The models change, and the news of that are on their way. -/
theorem Consistent.changed {models : String → Option (Model γ)} (h : Consistent configurations Quiet s)
    (hpresent : ∀ reference, s.isPresent reference = true → isPresent { s with models } reference = true)
    (hfree : ∀ name ∈ s.definitions.keys, models name = none)
    (hquiet : ∀ reference, s.isPresent reference = true → ¬ pending reference →
      getModelInstance { s with models } reference = s.getModelInstance reference) :
    Consistent configurations pending { s with models } where
  agree := h.agree
  present name reference hmem := hpresent reference (h.present name reference hmem)
  free name hmem := ⟨hfree name hmem, (h.free name hmem).2⟩
  follows name definition hfound := (h.follows name definition hfound).congr fun htold => by
    refine ⟨fun config hconfig reference hmem => ⟨(htold config hconfig reference hmem).1, id⟩, ?_⟩
    apply validateNodes_congr
    intro config hconfig reference hmem
    obtain ⟨hsubscribed, hnews⟩ := htold config hconfig reference hmem
    exact hquiet reference (h.present_of_find hfound reference hsubscribed) hnews

/-- The named definition, if there is one, requires a validation. -/
def Required (name : String) (s : ModelManager γ κ) : Prop :=
  ∀ definition, s.definitions.find? name = some definition → isRevalidationRequired definition.status = true

/-- A definition that is subscribed can be told that a model changed. -/
theorem Consistent.receiveNotification {reference : Reference} (h : Consistent configurations pending s)
    (hsubscriber : name ∈ s.subscribers reference) :
    ∃ t, s.receiveNotification name = some t ∧ Consistent configurations pending t ∧ t.subscribers = s.subscribers ∧
      Required name t ∧ ∀ other, other ≠ name → t.definitions.find? other = s.definitions.find? other := by
  have hmem := (h.agree.mem_iff reference name).mp hsubscriber
  cases hfound : s.definitions.find? name with
  | none =>
    unfold subscriptions at hmem
    rw [hfound] at hmem
    cases hmem
  | some definition =>
    rw [subscriptions_of_find hfound] at hmem
    have hstatus : ∃ status, definition.status.handle .UsedModelChangedEvent = some status ∧
        isRevalidationRequired status = true := by
      have hfollows := h.follows name definition hfound
      unfold Follows at hfollows
      cases hstatus : definition.status <;> rw [hstatus] at hfollows <;>
        first
        | exact ⟨_, rfl, rfl⟩
        | exact hfollows.elim
        | exact absurd (hfollows.2 ▸ hmem) List.not_mem_nil
    obtain ⟨status, hhandle, hrequired⟩ := hstatus
    have hfind := find?_replaced hfound fun definition => { definition with status }
    have hagree := h.agree_of_find hfound
    have hpresent := h.present_of_find hfound
    refine ⟨_, ?_, h.place hfind hagree hpresent (h.free_of_find hfound) ?_, rfl, ?_, ?_⟩
    · unfold ModelManager.receiveNotification
      rw [hfound, Option.bind_some, hhandle]
      rfl
    · unfold Follows
      cases status <;> trivial
    · intro told htold
      cases Option.some.inj (((hfind name).trans (if_pos rfl)).symm.trans htold)
      exact hrequired
    · exact fun other hother => (hfind other).trans (if_neg hother)

/-- All subscribers of the reference have been told. -/
theorem Consistent.notifySubscribers (h : Consistent configurations pending s) (reference : Reference) :
    ∃ t, s.notifySubscribers reference = some t ∧
      Consistent configurations (fun other => pending other ∧ other ≠ reference) t := by
  have hall : ∀ name ∈ s.subscribers reference, ∀ b : ModelManager γ κ,
      Consistent configurations pending b ∧ b.subscribers = s.subscribers → ∃ next, b.receiveNotification name = some next ∧
        (Consistent configurations pending next ∧ next.subscribers = s.subscribers) ∧ Required name next ∧
        ∀ other, Required other b → Required other next := by
    intro name hmem b hb
    obtain ⟨hconsistent, hsubscribers⟩ := hb
    have hsubscriber : name ∈ b.subscribers reference := hsubscribers ▸ hmem
    obtain ⟨next, hnext, hconsistent, hsame, hdone, hothers⟩ := hconsistent.receiveNotification hsubscriber
    refine ⟨next, hnext, ⟨hconsistent, hsame.trans hsubscribers⟩, hdone, ?_⟩
    intro other hother definition hfound
    by_cases heq : other = name
    · exact hdone definition (heq ▸ hfound)
    · exact hother definition (hothers other heq ▸ hfound)
  obtain ⟨t, ht, ⟨hconsistent, hsubscribers⟩, htold, -⟩ := foldlM_done
    (fun t => Consistent configurations pending t ∧ t.subscribers = s.subscribers) Required _ ⟨h, rfl⟩ hall
  refine ⟨t, ht, hconsistent.agree, hconsistent.present, hconsistent.free, ?_⟩
  intro name definition hfound
  by_cases hmem : reference ∈ definition.subscriptions
  · have hsubscriber : name ∈ t.subscribers reference :=
      (hconsistent.agree.mem_iff reference name).mpr (subscriptions_of_find hfound ▸ hmem)
    have hrequired := htold name (hsubscribers ▸ hsubscriber) definition hfound
    unfold Follows
    cases hstatus : definition.status <;> rw [hstatus] at hrequired <;> trivial
  · apply (hconsistent.follows name definition hfound).congr
    intro hexpected
    refine ⟨fun config hconfig other hother => ?_, rfl⟩
    obtain ⟨hsubscribed, hquiet⟩ := hexpected config hconfig other hother
    exact ⟨hsubscribed, fun hpending => hquiet ⟨hpending, fun heq => hmem (heq ▸ hsubscribed)⟩⟩

theorem Consistent.notifyAll {versions : List Int}
    (h : Consistent configurations (fun reference => reference.1 = name ∧ reference.2 ∈ versions) s) :
    ∃ t, versions.foldlM (fun (s : ModelManager γ κ) version => s.notifySubscribers (name, version)) s = some t ∧
      Consistent configurations Quiet t := by
  induction versions generalizing s with
  | nil => exact ⟨s, rfl, h.mono fun _ hpending => absurd hpending.2 List.not_mem_nil⟩
  | cons version rest ih =>
    obtain ⟨between, hbetween, hconsistent⟩ := h.notifySubscribers (name, version)
    have hrest : Consistent configurations (fun reference => reference.1 = name ∧ reference.2 ∈ rest) between := by
      apply hconsistent.mono
      intro reference hpending
      obtain ⟨⟨hname, hmem⟩, hother⟩ := hpending
      refine ⟨hname, (List.mem_cons.mp hmem).resolve_left fun hversion => hother ?_⟩
      exact Prod.ext hname hversion
    obtain ⟨t, ht, hconsistent⟩ := ih hrest
    refine ⟨t, ?_, hconsistent⟩
    rw [List.foldlM_cons, hbetween]
    exact ht

theorem Consistent.changeModel (h : Consistent configurations Quiet s) (operation : Model.Operation γ ε) :
    ∃ t, s.changeModel name operation = some t ∧ Consistent configurations Quiet t := by
  unfold ModelManager.changeModel
  cases hmodel : s.models name with
  | none => exact ⟨s, rfl, h⟩
  | some model =>
    obtain ⟨changed, hchanged⟩ : ∃ changed, model.step operation = some changed := by cases operation <;> exact ⟨_, rfl⟩
    rw [Option.elim_some, hchanged, Option.bind_some]
    apply Consistent.notifyAll
    apply h.changed
    · intro reference hpresent
      obtain ⟨found, hfound, hregistered⟩ := isPresent_iff.mp hpresent
      apply isPresent_iff.mpr
      dsimp only
      rw [Function.update_apply]
      split
      next heq =>
        rw [heq, hmodel] at hfound
        cases Option.some.inj hfound
        exact ⟨changed, rfl, Model.registered_step hchanged hregistered⟩
      next => exact ⟨found, hfound, hregistered⟩
    · intro other hother
      have hfree := (h.free other hother).1
      rw [Function.update_of_ne]
      · exact hfree
      · intro heq
        rw [heq, hmodel] at hfree
        cases hfree
    · intro reference hpresent hquiet
      obtain ⟨found, hfound, hregistered⟩ := isPresent_iff.mp hpresent
      unfold getModelInstance
      dsimp only
      rw [Function.update_apply]
      split
      next heq =>
        rw [heq, hmodel] at hfound
        cases Option.some.inj hfound
        rw [heq, hmodel, Option.bind_some, Option.bind_some]
        exact Model.getModelInstance_step hchanged hregistered fun hmem => hquiet ⟨heq, hmem⟩
      next => rfl

theorem Consistent.createModel (h : Consistent configurations Quiet s) (hnew : s.models name = none)
    (hname : s.definitions.find? name = none) :
    Consistent configurations Quiet { s with models := Function.update s.models name (some .initial) } := by
  apply h.changed
  · intro reference hpresent
    obtain ⟨found, hfound, hregistered⟩ := isPresent_iff.mp hpresent
    apply isPresent_iff.mpr
    dsimp only
    rw [Function.update_of_ne]
    · exact ⟨found, hfound, hregistered⟩
    · intro heq
      rw [heq, hnew] at hfound
      cases hfound
  · intro other hother
    rw [Function.update_of_ne]
    · exact (h.free other hother).1
    · intro heq
      exact OrderedMap.find?_eq_none_iff.mp hname (heq ▸ hother)
  · intro reference hpresent _
    obtain ⟨found, hfound, -⟩ := isPresent_iff.mp hpresent
    unfold getModelInstance
    dsimp only
    rw [Function.update_of_ne]
    intro heq
    rw [heq, hnew] at hfound
    cases hfound

theorem definitionExists_iff : s.definitionExists name = true ↔ ∃ definition, s.definitions.find? name = some definition :=
  Option.isSome_iff_exists

theorem modelExists_eq_false : s.modelExists name = false ↔ s.models name = none := by
  unfold modelExists
  rw [Option.isSome_eq_false_iff, Option.isNone_iff_eq_none]

variable (configurations) in
/-- No definition requires a validation, and the status of each that is subscribed to its models says what the
validation would say now. -/
def Settled (s : ModelManager γ κ) : Prop :=
  ∀ name definition, s.definitions.find? name = some definition → isRevalidationRequired definition.status = false ∧
    (definition.status ≠ .RETIRED → Told configurations Quiet definition → Fresh configurations s definition)

theorem Consistent.fresh (h : Consistent configurations Quiet s) (hfound : s.definitions.find? name = some definition)
    (hrequired : isRevalidationRequired definition.status = false) (hactive : definition.status ≠ .RETIRED)
    (htold : Told configurations Quiet definition) : Fresh configurations s definition := by
  have hfollows := h.follows name definition hfound
  unfold Follows Valid at hfollows
  unfold Fresh verdict
  cases hstatus : definition.status with
  | AVAILABLE =>
    rw [hstatus] at hfollows
    rw [hfollows htold]
  | LOADING_PRECONDITION_FAILED =>
    rw [hstatus] at hfollows
    have hinvalid := hfollows htold
    split
    next hvalid => exact absurd hvalid hinvalid
    next => rfl
  | RETIRED => exact absurd hstatus hactive
  | BEGIN | RELOADING =>
    rw [hstatus] at hfollows
    exact hfollows.elim
  | AVAILABLE_REQUIRED_REVALIDATION | LOADING_PRECONDITION_FAILED_REQUIRED_REVALIDATION =>
    rw [hstatus] at hrequired
    cases hrequired

/-- The named definition, if there is one, does not require a validation. -/
def NotRequired (name : String) (s : ModelManager γ κ) : Prop :=
  ∀ definition, s.definitions.find? name = some definition → isRevalidationRequired definition.status = false

theorem Consistent.revalidate {p : Progress γ κ ν} (h : Consistent configurations Quiet p.manager) (name : String) :
    ∃ next, p.revalidate configurations name = some next ∧ Consistent configurations Quiet next.manager ∧
      next.manager.models = p.manager.models ∧ next.manager.definitions.keys = p.manager.definitions.keys ∧
      NotRequired name next.manager ∧
      ∀ other, other ≠ name → next.manager.definitions.find? other = p.manager.definitions.find? other := by
  unfold Progress.revalidate
  cases hfound : p.manager.definitions.find? name with
  | none =>
    refine ⟨p, rfl, h, rfl, rfl, ?_, fun _ _ => rfl⟩
    intro definition hmem
    cases hfound.symm.trans hmem
  | some definition =>
    rw [Option.elim_some]
    split
    next hrequired =>
      obtain ⟨result, hvalidate, -⟩ := validate_free configurations definition (h.free_of_find hfound)
        (awaits_of_required hrequired)
      let validated : PipelineDefinition κ :=
        { definition with status := verdict (p.manager.validateNodes configurations definition) }
      have hfind := find?_replaced hfound fun _ => validated
      have hagree := h.agree_of_find hfound
      have hpresent := h.present_of_find hfound
      have hfresh : Fresh configurations p.manager validated := rfl
      have hconsistent := h.place hfind hagree hpresent (h.free_of_find hfound) hfresh.follows
      rw [hvalidate, Option.map_some]
      refine ⟨_, rfl, hconsistent, rfl, OrderedMap.keys_modify, ?_, fun other hother => (hfind other).trans (if_neg hother)⟩
      intro found hmem
      cases Option.some.inj (((hfind name).trans (if_pos rfl)).symm.trans hmem)
      change isRevalidationRequired (verdict _) = false
      unfold verdict
      split <;> rfl
    next hrequired =>
      refine ⟨p, rfl, h, rfl, rfl, ?_, fun _ _ => rfl⟩
      intro found hmem
      cases Option.some.inj (hfound.symm.trans hmem)
      exact Bool.eq_false_iff.mpr hrequired

theorem Consistent.revalidatePipelines (h : Consistent configurations Quiet s) :
    ∃ status t, s.revalidatePipelines configurations = some (status, t) ∧ Consistent configurations Quiet t ∧
      t.models = s.models ∧ Settled configurations t := by
  have hturn : ∀ name ∈ s.definitions.keys, ∀ p : Progress γ κ ν,
      Consistent configurations Quiet p.manager ∧ p.manager.models = s.models ∧
        p.manager.definitions.keys = s.definitions.keys →
      ∃ next, p.revalidate configurations name = some next ∧
        (Consistent configurations Quiet next.manager ∧ next.manager.models = s.models ∧
          next.manager.definitions.keys = s.definitions.keys) ∧
        NotRequired name next.manager ∧ ∀ other, NotRequired other p.manager → NotRequired other next.manager := by
    intro name _ p hp
    obtain ⟨hconsistent, hmodels, hkeys⟩ := hp
    obtain ⟨next, hnext, hconsistent, hmodels', hkeys', hdone, hothers⟩ :=
      hconsistent.revalidate name
    refine ⟨next, hnext, ⟨hconsistent, hmodels'.trans hmodels, hkeys'.trans hkeys⟩, hdone, ?_⟩
    intro other hother definition hfound
    by_cases heq : other = name
    · exact hdone definition (heq ▸ hfound)
    · exact hother definition (hothers other heq ▸ hfound)
  obtain ⟨p, hp, ⟨hconsistent, hmodels, hkeys⟩, hdone, -⟩ := foldlM_done
    (fun p : Progress γ κ ν => Consistent configurations Quiet p.manager ∧ p.manager.models = s.models ∧
      p.manager.definitions.keys = s.definitions.keys)
    (fun name p => NotRequired name p.manager) s.definitions.keys (b := ⟨s, .OK, []⟩) ⟨h, rfl, rfl⟩ hturn
  refine ⟨p.firstErrorStatus, p.manager, ?_, hconsistent, hmodels, ?_⟩
  · unfold ModelManager.revalidatePipelines
    rw [hp]
    rfl
  · intro name definition hfound
    have hmem : name ∈ s.definitions.keys := hkeys ▸ OrderedMap.mem_keys_iff.mpr ⟨definition, hfound⟩
    have hrequired := hdone name hmem definition hfound
    exact ⟨hrequired, hconsistent.fresh hfound hrequired⟩

/-- The configuration of a pipeline: the first one under its name without a parsing error. -/
def configured (configs : PipelineConfigs κ ν) (name : String) : Option κ :=
  configs.findSome? fun entry => if entry.1 = name then entry.2.toOption else none

theorem configured_append (configs : PipelineConfigs κ ν) (entry : String × Except (StatusCode ν) κ) (name : String) :
    configured (configs ++ [entry]) name =
      (configured configs name).or (if entry.1 = name then entry.2.toOption else none) := by
  unfold configured
  rw [List.findSome?_append, List.findSome?_singleton]

variable (configurations) in
/-- The definitions of a state are those of these configurations, and were validated against its models. -/
structure Configured (configs : PipelineConfigs κ ν) (s : ModelManager γ κ) : Prop where
  loaded : ∀ name config definition, configured configs name = some config →
    s.definitions.find? name = some definition → definition.config = some config ∧ Fresh configurations s definition
  found : ∀ name config, configured configs name = some config → s.models name = none → name ∉ s.graphs →
    ∃ definition, s.definitions.find? name = some definition

theorem Fresh.congr (h : Fresh configurations s definition) (hmodels : t.models = s.models) :
    Fresh configurations t definition := by
  refine Eq.trans h (congrArg verdict (Eq.symm (validateNodes_congr ?_)))
  intro config _ reference _
  unfold getModelInstance
  rw [hmodels]

/-- The definitions of more configurations. -/
theorem Configured.loads {configs more : PipelineConfigs κ ν} {config : κ} (h : Configured configurations configs s)
    (hloads : Loads configurations s t name config)
    (hmore : ∀ other, configured more other = if other = name then some config else configured configs other) :
    Configured configurations more t := by
  refine ⟨?_, ?_⟩
  · intro other found definition hconfigured hfound
    rw [hmore] at hconfigured
    split at hconfigured
    next heq =>
      cases Option.some.inj hconfigured
      exact hloads.loaded definition (heq ▸ hfound)
    next hne =>
      rw [hloads.others other hne] at hfound
      obtain ⟨hconfig, hfresh⟩ := h.loaded other found definition hconfigured hfound
      exact ⟨hconfig, hfresh.congr hloads.models⟩
  · intro other found hconfigured hmodel hgraph
    rw [hloads.models] at hmodel
    rw [hloads.graphs] at hgraph
    rw [hmore] at hconfigured
    split at hconfigured
    next heq =>
      subst heq
      exact hloads.found hmodel hgraph
    next hne =>
      rw [hloads.others other hne]
      exact h.found other found hconfigured hmodel hgraph

variable (configurations) in
/-- Where the loop of `loadPipelinesConfig` stands after these entries. -/
structure Loading (s : ModelManager γ κ) (configs : PipelineConfigs κ ν) (p : Progress γ κ ν) : Prop where
  consistent : Consistent configurations Quiet p.manager
  models : p.manager.models = s.models
  graphs : p.manager.graphs = s.graphs
  names : ∀ name, name ∈ p.pipelinesInConfigFile ↔ (configured configs name).isSome = true
  configured : Configured configurations configs p.manager

/-- An entry that is passed by. -/
theorem Loading.skips {configs more : PipelineConfigs κ ν} {p : Progress γ κ ν} (h : Loading configurations s configs p)
    (status : StatusCode ν) (hsame : ∀ name, ModelManager.configured more name = ModelManager.configured configs name) :
    Loading configurations s more { p with firstErrorStatus := status } where
  consistent := h.consistent
  models := h.models
  graphs := h.graphs
  names name := hsame name ▸ h.names name
  configured :=
    { loaded := fun name config definition hconfigured =>
        h.configured.loaded name config definition (hsame name ▸ hconfigured)
      found := fun name config hconfigured => h.configured.found name config (hsame name ▸ hconfigured) }

theorem Loading.processPipelineConfig {configs : PipelineConfigs κ ν} {p : Progress γ κ ν}
    (h : Loading configurations s configs p) (entry : String × Except (StatusCode ν) κ) :
    ∃ next, p.processPipelineConfig configurations entry = some next ∧
      Loading configurations s (configs ++ [entry]) next := by
  obtain ⟨name, parsed⟩ := entry
  unfold Progress.processPipelineConfig
  by_cases hlisted : name ∈ p.pipelinesInConfigFile
  · rw [if_pos hlisted]
    refine ⟨p, rfl, h.skips p.firstErrorStatus fun other => ?_⟩
    rw [configured_append]
    split
    next heq =>
      obtain ⟨config, hconfig⟩ := Option.isSome_iff_exists.mp ((h.names other).mp (heq ▸ hlisted))
      rw [hconfig, Option.some_or]
    next => exact Option.or_none
  · rw [if_neg hlisted]
    cases parsed with
    | error status =>
      refine ⟨_, rfl, h.skips _ fun other => ?_⟩
      rw [configured_append]
      exact (congrArg _ (ite_self none)).trans Option.or_none
    | ok config =>
      have hnone : ModelManager.configured configs name = none := by
        rw [h.names, Bool.not_eq_true, Option.isSome_eq_false_iff] at hlisted
        exact Option.isNone_iff_eq_none.mp hlisted
      have hmore : ∀ other, ModelManager.configured (configs ++ [(name, .ok config)]) other =
          if other = name then some config else ModelManager.configured configs other := by
        intro other
        rw [configured_append]
        split
        next heq =>
          rw [if_pos heq.symm, ← heq, hnone]
          rfl
        next hne => rw [if_neg fun heq => hne heq.symm, Option.or_none]
      have hloads : ∃ result t, (if p.manager.definitionExists name then
          p.manager.reloadDefinition configurations name config
          else p.manager.createDefinition configurations name config) = some (result, t) ∧
          Loads configurations p.manager t name config := by
        split
        next hexists =>
          obtain ⟨definition, hfound⟩ := definitionExists_iff.mp hexists
          unfold reloadDefinition
          rw [hfound]
          exact h.consistent.reload hfound
        next hnew => exact h.consistent.createDefinition (Bool.eq_false_iff.mpr hnew)
      obtain ⟨result, t, ht, hloads⟩ := hloads
      dsimp only
      rw [ht]
      refine ⟨_, rfl, hloads.consistent, hloads.models.trans h.models, hloads.graphs.trans h.graphs, ?_,
        h.configured.loads hloads hmore⟩
      intro other
      rw [hmore, List.mem_cons, h.names]
      split
      next heq => exact iff_of_true (.inl heq) rfl
      next hne => exact or_iff_right hne

theorem Loading.foldlM {configs : PipelineConfigs κ ν} {p : Progress γ κ ν} (rest : PipelineConfigs κ ν)
    (h : Loading configurations s configs p) :
    ∃ last, rest.foldlM (fun (p : Progress γ κ ν) entry => p.processPipelineConfig configurations entry) p = some last ∧
      Loading configurations s (configs ++ rest) last := by
  induction rest generalizing configs p with
  | nil => exact ⟨p, rfl, (List.append_nil configs).symm ▸ h⟩
  | cons entry rest ih =>
    obtain ⟨next, hnext, hloading⟩ := h.processPipelineConfig entry
    obtain ⟨last, hlast, hloading⟩ := ih hloading
    rw [List.append_assoc, List.singleton_append] at hloading
    refine ⟨last, ?_, hloading⟩
    rw [List.foldlM_cons, hnext]
    exact hlast

/-- The named definition is retired, unless it is in the configuration file. -/
def Retired (names : List String) (name : String) (s : ModelManager γ κ) : Prop :=
  name ∉ names → ∀ definition, s.definitions.find? name = some definition → definition.status = .RETIRED

/-- What `retireOtherThan` keeps of the state it is called in. -/
structure Retiring (configurations : Configurations γ κ ν) (names : List String) (s t : ModelManager γ κ) : Prop where
  consistent : Consistent configurations Quiet t
  models : t.models = s.models
  graphs : t.graphs = s.graphs
  keys : t.definitions.keys = s.definitions.keys
  listed : ∀ name ∈ names, t.definitions.find? name = s.definitions.find? name

theorem Retiring.retireOther {names : List String} (h : Retiring configurations names s t) (name : String) :
    ∃ next, t.retireOther names name = some next ∧ Retiring configurations names s next ∧ Retired names name next ∧
      ∀ other, Retired names other t → Retired names other next := by
  unfold ModelManager.retireOther
  cases hfound : t.definitions.find? name with
  | none =>
    refine ⟨t, rfl, h, fun _ definition hmem => ?_, fun _ hother => hother⟩
    cases hfound.symm.trans hmem
  | some definition =>
    rw [Option.elim_some]
    split
    next hretires =>
      obtain ⟨hunlisted, hactive⟩ := hretires
      obtain ⟨subscribers, hretire, hconsistent⟩ := h.consistent.retire hfound hactive
      have hfind := find?_replaced hfound fun _ => (⟨.RETIRED, none, []⟩ : PipelineDefinition κ)
      have hretired : ∀ definition, (t.definitions.modify name fun _ => ⟨.RETIRED, none, []⟩).find? name =
          some definition → definition.status = .RETIRED := by
        intro retired hmem
        cases Option.some.inj (((hfind name).trans (if_pos rfl)).symm.trans hmem)
        rfl
      refine ⟨_, hretire, ⟨hconsistent, h.models, h.graphs, OrderedMap.keys_modify.trans h.keys, ?_⟩, fun _ => hretired, ?_⟩
      · intro other hmem
        have hne : other ≠ name := fun heq => hunlisted (heq ▸ hmem)
        exact ((hfind other).trans (if_neg hne)).trans (h.listed other hmem)
      · intro other hother hmem found hfound
        by_cases heq : other = name
        · subst heq
          exact hretired found hfound
        · exact hother hmem found (((hfind other).trans (if_neg heq)).symm.trans hfound)
    next hkept =>
      refine ⟨t, rfl, h, ?_, fun _ hother => hother⟩
      intro hunlisted found hmem
      cases Option.some.inj (hfound.symm.trans hmem)
      by_contra hactive
      exact hkept ⟨hunlisted, hactive⟩

theorem Consistent.retireOtherThan (h : Consistent configurations Quiet s) (names : List String) :
    ∃ t, s.retireOtherThan names = some t ∧ Retiring configurations names s t ∧ ∀ name, Retired names name t := by
  obtain ⟨t, ht, hretiring, hdone, -⟩ := foldlM_done (f := fun (s : ModelManager γ κ) name => s.retireOther names name)
    (Retiring configurations names s) (Retired names) s.definitions.keys ⟨h, rfl, rfl, rfl, fun _ _ => rfl⟩
    fun name _ t ht => ht.retireOther name
  refine ⟨t, ht, hretiring, ?_⟩
  intro name hunlisted definition hfound
  have hmem : name ∈ s.definitions.keys := hretiring.keys ▸ OrderedMap.mem_keys_iff.mpr ⟨definition, hfound⟩
  exact hdone name hmem hunlisted definition hfound

variable (configurations) in
/-- The definitions are those of these configurations; all others are retired. -/
structure Loaded (configs : PipelineConfigs κ ν) (s : ModelManager γ κ) : Prop where
  retired : ∀ name definition, configured configs name = none → s.definitions.find? name = some definition →
    definition.status = .RETIRED
  configured : Configured configurations configs s

theorem Consistent.loadPipelinesConfig (h : Consistent configurations Quiet s) (configs : PipelineConfigs κ ν) :
    ∃ status t, s.loadPipelinesConfig configurations configs = some (status, t) ∧
      Consistent configurations Quiet t ∧ t.models = s.models ∧ Loaded configurations configs t := by
  have hstart : Loading configurations s [] ⟨s, .OK, []⟩ := by
    refine ⟨h, rfl, rfl, fun name => iff_of_false List.not_mem_nil nofun, ⟨?_, ?_⟩⟩
    · intro name config definition hconfigured
      cases hconfigured
    · intro name config hconfigured
      cases hconfigured
  obtain ⟨p, hp, hloading⟩ := hstart.foldlM configs
  rw [List.nil_append] at hloading
  obtain ⟨t, ht, hretiring, hretired⟩ := hloading.consistent.retireOtherThan p.pipelinesInConfigFile
  refine ⟨p.firstErrorStatus, t, ?_, hretiring.consistent, hretiring.models.trans hloading.models, ?_, ?_, ?_⟩
  · unfold ModelManager.loadPipelinesConfig
    rw [hp, Option.bind_some, ht]
    rfl
  · intro name definition hconfigured hfound
    apply hretired name _ definition hfound
    rw [hloading.names, hconfigured]
    nofun
  · intro name config definition hconfigured hfound
    have hlisted : name ∈ p.pipelinesInConfigFile := (hloading.names name).mpr (by rw [hconfigured]; rfl)
    rw [hretiring.listed name hlisted] at hfound
    obtain ⟨hconfig, hfresh⟩ := hloading.configured.loaded name config definition hconfigured hfound
    exact ⟨hconfig, hfresh.congr hretiring.models⟩
  · intro name config hconfigured hmodel hgraph
    have hlisted : name ∈ p.pipelinesInConfigFile := (hloading.names name).mpr (by rw [hconfigured]; rfl)
    rw [hretiring.listed name hlisted]
    rw [hretiring.models] at hmodel
    rw [hretiring.graphs] at hgraph
    exact hloading.configured.found name config hconfigured hmodel hgraph

theorem Consistent.step (h : Consistent configurations Quiet s) (action : Action γ ε κ ν) :
    ∃ t, step configurations s action = some t ∧ Consistent configurations Quiet t := by
  cases action with
  | createModel name =>
    unfold PipelineFactory.step
    dsimp only
    split
    next => exact ⟨s, rfl, h⟩
    next hfree =>
      obtain ⟨hname, hfree⟩ := not_or.mp hfree
      obtain ⟨-, hmodel⟩ := not_or.mp hfree
      refine ⟨_, rfl, h.createModel (modelExists_eq_false.mp (Bool.eq_false_iff.mpr hmodel)) ?_⟩
      exact Option.not_isSome_iff_eq_none.mp hname
  | changeModel name operation => exact h.changeModel operation
  | registerGraph name =>
    unfold PipelineFactory.step
    dsimp only
    split
    next => exact ⟨s, rfl, h⟩
    next hfree =>
      obtain ⟨-, hname⟩ := not_or.mp hfree
      refine ⟨_, rfl, h.agree, h.present, fun other hmem => ⟨(h.free other hmem).1, ?_⟩, h.follows⟩
      intro hgraph
      obtain rfl | hgraph := List.mem_cons.mp hgraph
      · exact hname (definitionExists_iff.mpr (OrderedMap.mem_keys_iff.mp hmem))
      · exact (h.free other hmem).2 hgraph
  | clearLoraAlias name =>
    refine ⟨_, rfl, h.agree, h.present, fun other hmem => ⟨(h.free other hmem).1, ?_⟩, h.follows⟩
    exact fun hgraph => (h.free other hmem).2 (List.mem_of_mem_erase hgraph)
  | loadPipelinesConfig configs =>
    obtain ⟨status, t, ht, hconsistent, -⟩ := h.loadPipelinesConfig configs
    exact ⟨t, congrArg (Option.map Prod.snd) ht, hconsistent⟩
  | revalidatePipelines =>
    obtain ⟨status, t, ht, hconsistent, -⟩ := h.revalidatePipelines
    exact ⟨t, congrArg (Option.map Prod.snd) ht, hconsistent⟩

/-- Pipelines whose nodes are valid where all their models are loaded. -/
def loadedModels : Configurations Unit (List Reference) Unit where
  references := id
  validateNodes _ found := if found.all Option.isSome then .ok () else .error ()

/-- A pipeline of two models; a version of the second one is loaded later, and retired again. -/
def unsubscribed : List (Action Unit Unit (List Reference) Unit) :=
  [.createModel "a", .createModel "b", .loadPipelinesConfig [("p", .ok [("a", 0), ("b", 2)])],
    .changeModel "b" (.addVersions () [(2, none)]), .changeModel "a" (.addVersions () [(1, none)]), .revalidatePipelines,
    .changeModel "b" (.retireVersions [2]), .revalidatePipelines]

-- A version that was missing when the pipeline was loaded has no subscriber: nothing tells that it went away.
example : (run (step loadedModels) initial unsubscribed).map (fun s =>
    ((s.definitions.find? "p").map (·.status), (s.getModelInstance ("b", 2)).isSome)) =
    some (some .AVAILABLE, false) := by decide

end ModelManager

end ModelServer.PipelineFactory
