import ModelServer.Model

namespace ModelServer.Model

open Runs

variable {γ ε : Type}

/-- The version and the configuration of an instance, if it is registered and loaded. -/
def lookup (m : Model γ) (version : Int) : Option (Int × γ) :=
  ((m.modelVersions.find? version).filter fun versionInstance => versionInstance.status.state = .AVAILABLE).map
    fun versionInstance => (version, versionInstance.config)

/-- What `getModelInstance` finds; version 0 asks for the default version. -/
def getModelInstance (m : Model γ) (version : Int) : Option (Int × γ) :=
  m.lookup (if version = 0 then m.defaultVersion else version)

/-- There is something to subscribe to: version 0 is the model itself. -/
def Registered (m : Model γ) (version : Int) : Prop := version = 0 ∨ version ∈ m.modelVersions.keys

instance (m : Model γ) (version : Int) : Decidable (m.Registered version) :=
  inferInstanceAs (Decidable (_ ∨ _))

/-- The versions whose subscribers an operation notifies, in turn; 0 stands for the subscribers of the model. A version
that is added has no subscribers yet. -/
def notifications (m : Model γ) : Operation γ ε → List Int
  | .addVersions _ attempts => (attempts.filter fun attempt => attempt.2.isNone).map fun _ => 0
  | .reloadVersions _ attempts => (attempts.map Prod.fst).filter (· ∈ m.modelVersions.keys) ++ [0]
  | .retireVersions versions | .cleanupFailedLoad versions => versions.filter (· ∈ m.modelVersions.keys) ++ [0]
  | .retireAllVersions | .cleanupAllVersions => m.modelVersions.keys ++ [0]

theorem lookup_emplace {m : Model γ} {config : γ} {error : Option ε} {added version : Int}
    (h : version ∈ m.modelVersions.keys ∨ error.isSome) :
    lookup { m with modelVersions := m.modelVersions.emplace added (.load config error) } version = m.lookup version := by
  unfold lookup
  rw [OrderedMap.find?_emplace]
  split
  next hnew =>
    obtain ⟨rfl, hnew⟩ := hnew
    have hnone : m.modelVersions.find? version = none := OrderedMap.find?_eq_none_iff.mpr hnew
    obtain ⟨error, rfl⟩ := Option.isSome_iff_exists.mp (h.resolve_left hnew)
    rw [hnone]
    rfl
  next => rfl

theorem getModelInstance_of_ne {m t : Model γ} {version : Int} (hversion : version ≠ 0)
    (h : t.lookup version = m.lookup version) : t.getModelInstance version = m.getModelInstance version := by
  rw [getModelInstance, getModelInstance, if_neg hversion, if_neg hversion, h]

section Modify

variable {m t : Model γ} {changed version : Int} {f : ModelInstance γ → ModelInstance γ}
  (ht : t.modelVersions = m.modelVersions.modify changed f)
include ht

theorem registered_modify (h : m.Registered version) : t.Registered version := by
  rw [Registered, ht, OrderedMap.keys_modify]
  exact h

/-- The instance of another version is loaded or unloaded, and the default version may become another one. -/
theorem getModelInstance_modify (hversion : version ≠ 0) (hother : version ≠ changed) :
    t.getModelInstance version = m.getModelInstance version := by
  apply getModelInstance_of_ne hversion
  unfold lookup
  rw [ht, OrderedMap.find?_modify, if_neg hother]

end Modify

theorem registered_addNext {config : γ} {p : Progress γ ε} {version : Int} (h : p.model.Registered version)
    (attempt : Int × Option ε) : (addNext config p attempt).model.Registered version := by
  have hadded : (p.model.addVersion config attempt.1 attempt.2).2.Registered version := by
    unfold addVersion
    split
    next => exact h.imp id fun hmem => OrderedMap.mem_keys_emplace.mpr (.inr hmem)
    next => exact h.imp id fun hmem => OrderedMap.mem_keys_emplace.mpr (.inr hmem)
  unfold addNext
  split
  next heq => rwa [heq] at hadded
  next heq => rwa [heq] at hadded

theorem registered_reloadNext {config : γ} {p : Progress γ ε} {version : Int} (h : p.model.Registered version)
    (attempt : Int × Option ε) : (reloadNext config p attempt).model.Registered version := by
  unfold reloadNext
  split
  next => exact h
  next =>
    split
    next => exact registered_modify (f := fun _ => .load config attempt.2) rfl h
    next => exact registered_modify (f := fun _ => .load config attempt.2) rfl h

theorem registered_unloadNext {unload : ModelInstance γ → ModelInstance γ} {p : Progress γ ε} {version : Int}
    (h : p.model.Registered version) (unloaded : Int) : (unloadNext unload p unloaded).model.Registered version := by
  unfold unloadNext
  split
  next => exact h
  next => exact registered_modify (f := unload) rfl h

theorem registered_unloadAny {unload : ModelInstance γ → ModelInstance γ} {m : Model γ} {version : Int}
    (h : m.Registered version) (unloaded : Int) : (unloadAny unload m unloaded).Registered version :=
  registered_modify (f := unload) rfl h

/-- A version that is added: only the default version may then be another one, and only if the load succeeded. -/
theorem getModelInstance_addNext {config : γ} {p : Progress γ ε} {attempt : Int × Option ε} {version : Int}
    (hregistered : p.model.Registered version) (hquiet : version = 0 → attempt.2.isSome) :
    (addNext config p attempt).model.getModelInstance version = p.model.getModelInstance version := by
  have hadded : (p.model.addVersion config attempt.1 attempt.2).2.getModelInstance version =
      p.model.getModelInstance version := by
    unfold addVersion
    split
    next error herror => exact lookup_emplace (.inr (by rw [herror]; rfl))
    next hnone =>
      have hversion : version ≠ 0 := fun h => by rw [hnone] at hquiet; cases hquiet h
      exact getModelInstance_of_ne hversion (lookup_emplace (.inl (hregistered.resolve_left hversion)))
  unfold addNext
  split
  next heq => rwa [heq] at hadded
  next heq => rwa [heq] at hadded

theorem getModelInstance_reloadNext {config : γ} {p : Progress γ ε} {attempt : Int × Option ε} {version : Int}
    (hversion : version ≠ 0) (hother : version ≠ attempt.1) :
    (reloadNext config p attempt).model.getModelInstance version = p.model.getModelInstance version := by
  unfold reloadNext
  split
  next => rfl
  next =>
    split
    next => exact getModelInstance_modify (f := fun _ => .load config attempt.2) rfl hversion hother
    next => exact getModelInstance_modify (f := fun _ => .load config attempt.2) rfl hversion hother

theorem getModelInstance_unloadNext {unload : ModelInstance γ → ModelInstance γ} {p : Progress γ ε}
    {unloaded version : Int} (hversion : version ≠ 0) (hother : version ≠ unloaded) :
    (unloadNext unload p unloaded).model.getModelInstance version = p.model.getModelInstance version := by
  unfold unloadNext
  split
  next => rfl
  next => exact getModelInstance_modify (f := unload) rfl hversion hother

theorem registered_step {m t : Model γ} {operation : Operation γ ε} {version : Int} (ht : step m operation = some t)
    (h : m.Registered version) : t.Registered version := by
  cases operation with
  | addVersions config attempts =>
    cases Option.some.inj ht
    exact List.foldlRecOn (motive := fun p : Progress γ ε => p.model.Registered version) attempts _ h
      fun p hp attempt _ => registered_addNext hp attempt
  | reloadVersions config attempts =>
    cases Option.some.inj ht
    exact List.foldlRecOn (motive := fun p : Progress γ ε => p.model.Registered version) attempts _ h
      fun p hp attempt _ => registered_reloadNext hp attempt
  | retireVersions versions =>
    cases Option.some.inj ht
    exact List.foldlRecOn (motive := fun p : Progress γ ε => p.model.Registered version) versions _ h
      fun p hp unloaded _ => registered_unloadNext hp unloaded
  | cleanupFailedLoad versions =>
    cases Option.some.inj ht
    exact List.foldlRecOn (motive := fun p : Progress γ ε => p.model.Registered version) versions _ h
      fun p hp unloaded _ => registered_unloadNext hp unloaded
  | retireAllVersions =>
    cases Option.some.inj ht
    exact List.foldlRecOn (motive := fun t : Model γ => t.Registered version) _ _ h
      fun m hm unloaded _ => registered_unloadAny hm unloaded
  | cleanupAllVersions =>
    cases Option.some.inj ht
    exact List.foldlRecOn (motive := fun t : Model γ => t.Registered version) _ _ h
      fun m hm unloaded _ => registered_unloadAny hm unloaded

/-- What an operation changes for a version that has subscribers, it tells them. -/
theorem getModelInstance_step {m t : Model γ} {operation : Operation γ ε} {version : Int}
    (ht : step m operation = some t) (hregistered : m.Registered version)
    (hquiet : version ∉ m.notifications operation) : t.getModelInstance version = m.getModelInstance version := by
  have hversion : (0 : Int) ∈ m.notifications operation → version ≠ 0 := fun hzero heq => hquiet (heq ▸ hzero)
  have hother : ∀ versions : List Int, version ≠ 0 → version ∉ versions.filter (· ∈ m.modelVersions.keys) ++ [0] →
      ∀ other ∈ versions, version ≠ other := by
    intro versions hversion hquiet other hmem heq
    have hkey := hregistered.resolve_left hversion
    exact hquiet (List.mem_append_left _ (List.mem_filter.mpr ⟨heq ▸ hmem, decide_eq_true hkey⟩))
  cases operation with
  | addVersions config attempts =>
    cases Option.some.inj ht
    have hkept := List.foldlRecOn (motive := fun p : Progress γ ε => p.model.Registered version ∧
      p.model.getModelInstance version = m.getModelInstance version) attempts (addNext config) (b := ⟨m, .OK, []⟩)
      ⟨hregistered, rfl⟩ fun p hp attempt hattempt => by
        refine ⟨registered_addNext hp.1 attempt, Eq.trans (getModelInstance_addNext hp.1 fun hzero => ?_) hp.2⟩
        by_contra hloaded
        have hsucceeded : attempt.2.isNone := Option.isNone_iff_eq_none.mpr (Option.not_isSome_iff_eq_none.mp hloaded)
        exact hquiet (List.mem_map.mpr ⟨attempt, List.mem_filter.mpr ⟨hattempt, hsucceeded⟩, hzero.symm⟩)
    exact hkept.2
  | reloadVersions config attempts =>
    cases Option.some.inj ht
    have hversion := hversion (List.mem_append_right _ List.mem_cons_self)
    have hother := hother _ hversion hquiet
    exact List.foldlRecOn
      (motive := fun p : Progress γ ε => p.model.getModelInstance version = m.getModelInstance version) attempts _ rfl
      fun p hp attempt hattempt =>
        (getModelInstance_reloadNext hversion (hother attempt.1 (List.mem_map_of_mem hattempt))).trans hp
  | retireVersions versions =>
    cases Option.some.inj ht
    have hversion := hversion (List.mem_append_right _ List.mem_cons_self)
    have hother := hother _ hversion hquiet
    exact List.foldlRecOn
      (motive := fun p : Progress γ ε => p.model.getModelInstance version = m.getModelInstance version) versions _ rfl
      fun p hp unloaded hunloaded => (getModelInstance_unloadNext hversion (hother unloaded hunloaded)).trans hp
  | cleanupFailedLoad versions =>
    cases Option.some.inj ht
    have hversion := hversion (List.mem_append_right _ List.mem_cons_self)
    have hother := hother _ hversion hquiet
    exact List.foldlRecOn
      (motive := fun p : Progress γ ε => p.model.getModelInstance version = m.getModelInstance version) versions _ rfl
      fun p hp unloaded hunloaded => (getModelInstance_unloadNext hversion (hother unloaded hunloaded)).trans hp
  | retireAllVersions =>
    have hversion := hversion (List.mem_append_right _ List.mem_cons_self)
    exact absurd (List.mem_append_left _ (hregistered.resolve_left hversion)) hquiet
  | cleanupAllVersions =>
    have hversion := hversion (List.mem_append_right _ List.mem_cons_self)
    exact absurd (List.mem_append_left _ (hregistered.resolve_left hversion)) hquiet

end ModelServer.Model
