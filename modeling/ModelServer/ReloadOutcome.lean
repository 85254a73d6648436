import ModelServer.ReloadPhases

namespace ModelServer.Model

variable {γ ε : Type}

/-- No version is left on its way: it is available, or it failed to load, or it was retired. -/
def AtRest (m : Model γ) : Prop :=
  ∀ version versionInstance, m.modelVersions.find? version = some versionInstance →
    versionInstance.status.state = .AVAILABLE ∨ versionInstance.status.willEndUnloaded ∨
      versionInstance.status.isFailedLoading

section AtRest

variable {m : Model γ} (hm : m.AtRest)

theorem load_atRest (config : γ) (error : Option ε) :
    (ModelInstance.load config error).status.state = .AVAILABLE ∨ (ModelInstance.load config error).status.willEndUnloaded ∨
      (ModelInstance.load config error).status.isFailedLoading := by
  cases error with
  | none => exact .inl rfl
  | some error => exact .inr (.inr rfl)

include hm

theorem atRest_modify {version : Int} {f : ModelInstance γ → ModelInstance γ}
    (hf : ∀ versionInstance, (f versionInstance).status.state = .AVAILABLE ∨
      (f versionInstance).status.willEndUnloaded ∨ (f versionInstance).status.isFailedLoading) (defaultVersion : Int) :
    AtRest ⟨m.modelVersions.modify version f, defaultVersion⟩ := by
  intro other versionInstance hfind
  rw [OrderedMap.find?_modify] at hfind
  split at hfind
  next =>
    obtain ⟨old, -, rfl⟩ := Option.map_eq_some_iff.mp hfind
    exact hf old
  next => exact hm other versionInstance hfind

theorem atRest_unloadNext {unload : ModelInstance γ → ModelInstance γ} (hunload : ∀ versionInstance,
    (unload versionInstance).status.willEndUnloaded ∨ (unload versionInstance).status.isFailedLoading)
    {p : Progress γ ε} (hp : p.model = m) (version : Int) : (unloadNext unload p version).model.AtRest := by
  subst hp
  unfold unloadNext
  split
  next => exact hm
  next => exact atRest_modify hm (fun other => .inr (hunload other)) _

theorem atRest_unloadAny {unload : ModelInstance γ → ModelInstance γ} (hunload : ∀ versionInstance,
    (unload versionInstance).status.willEndUnloaded ∨ (unload versionInstance).status.isFailedLoading) (version : Int) :
    (m.unloadAny unload version).AtRest :=
  atRest_modify hm (fun other => .inr (hunload other)) _

theorem atRest_addNext {config : γ} {p : Progress γ ε} (hp : p.model = m) (attempt : Int × Option ε) :
    (addNext config p attempt).model.AtRest := by
  subst hp
  have hadded : AtRest ⟨p.model.modelVersions.emplace attempt.1 (.load config attempt.2), p.model.defaultVersion⟩ := by
    intro other versionInstance hfind
    rw [OrderedMap.find?_emplace] at hfind
    split at hfind
    next => exact Option.some.inj hfind ▸ load_atRest config attempt.2
    next => exact hm other versionInstance hfind
  obtain ⟨version, error⟩ := attempt
  cases error with
  | none => exact hadded
  | some error => exact hadded

theorem atRest_reloadNext {config : γ} {p : Progress γ ε} (hp : p.model = m) (attempt : Int × Option ε) :
    (reloadNext config p attempt).model.AtRest := by
  subst hp
  obtain ⟨version, error⟩ := attempt
  unfold reloadNext
  split
  next => exact hm
  next =>
    cases error with
    | none => exact atRest_modify hm (fun _ => load_atRest config none) _
    | some error => exact atRest_modify hm (fun _ => load_atRest config (some error)) _

theorem step_atRest {t : Model γ} {operation : Operation γ ε} (ht : step m operation = some t) : t.AtRest := by
  cases operation with
  | addVersions config attempts =>
    rw [← Option.some.inj ht]
    exact List.foldlRecOn (motive := fun p : Progress γ ε => p.model.AtRest) _ _ hm fun _ hp _ _ => atRest_addNext hp rfl _
  | reloadVersions config attempts =>
    rw [← Option.some.inj ht]
    exact List.foldlRecOn (motive := fun p : Progress γ ε => p.model.AtRest) _ _ hm fun _ hp _ _ => atRest_reloadNext hp rfl _
  | retireVersions versions =>
    rw [← Option.some.inj ht]
    exact List.foldlRecOn (motive := fun p : Progress γ ε => p.model.AtRest) _ _ hm
      fun _ hp _ _ => atRest_unloadNext hp (fun _ => .inl rfl) rfl _
  | cleanupFailedLoad versions =>
    rw [← Option.some.inj ht]
    exact List.foldlRecOn (motive := fun p : Progress γ ε => p.model.AtRest) _ _ hm
      fun _ hp _ _ => atRest_unloadNext hp (fun _ => .inr rfl) rfl _
  | retireAllVersions =>
    rw [← Option.some.inj ht]
    exact List.foldlRecOn _ _ hm fun _ hm _ _ => atRest_unloadAny hm (fun _ => .inl rfl) _
  | cleanupAllVersions =>
    rw [← Option.some.inj ht]
    exact List.foldlRecOn _ _ hm fun _ hm _ _ => atRest_unloadAny hm (fun _ => .inr rfl) _

end AtRest

open Runs in
theorem reaches_atRest {allowed : Model γ → Operation γ ε → Prop} {m : Model γ} (h : Reaches step allowed initial m) :
    m.AtRest := by
  apply h.keeps
  · intro version versionInstance hfind
    cases hfind
  · intro m t operation hm _ ht
    exact step_atRest hm ht

section Numbered

theorem unloadNext_numbered {unload : ModelInstance γ → ModelInstance γ} {p : Progress γ ε} (hp : p.model.Numbered)
    (version : Int) : (unloadNext unload p version).model.Numbered := by
  unfold unloadNext
  split
  next => exact hp
  next => exact numbered_modify hp version unload

theorem reloadNext_numbered {config : γ} {p : Progress γ ε} (hp : p.model.Numbered) (attempt : Int × Option ε) :
    (reloadNext config p attempt).model.Numbered := by
  obtain ⟨version, error⟩ := attempt
  unfold reloadNext
  split
  next => exact hp
  next =>
    cases error with
    | none => exact numbered_modify hp version _
    | some error => exact numbered_modify hp version _

theorem addVersions_numbered {m : Model γ} (hm : m.Numbered) {config : γ} {attempts : List (Int × Option ε)}
    (hattempts : ∀ attempt ∈ attempts, 0 < attempt.1) : (m.addVersions config attempts).model.Numbered := by
  refine List.foldlRecOn (motive := fun p : Progress γ ε => p.model.Numbered) _ _ hm fun p hp attempt hattempt => ?_
  have hadded : Numbered { p.model with modelVersions := p.model.modelVersions.emplace attempt.1 (.load config attempt.2) } := by
    intro other hother
    obtain rfl | hother := OrderedMap.mem_keys_emplace.mp hother
    · exact hattempts attempt hattempt
    · exact hp other hother
  obtain ⟨version, error⟩ := attempt
  cases error with
  | none => exact hadded
  | some error => exact hadded

open Runs in
theorem reaches_numbered {m : Model γ} (h : Reaches (step (ε := ε)) Positive initial m) : m.Numbered := by
  apply h.keeps initial_settled.numbered
  intro m t operation hm hpositive ht
  cases operation with
  | addVersions config attempts => exact Option.some.inj ht ▸ addVersions_numbered hm hpositive
  | reloadVersions config attempts =>
    rw [← Option.some.inj ht]
    exact List.foldlRecOn (motive := fun p : Progress γ ε => p.model.Numbered) _ _ hm fun _ hp _ _ => reloadNext_numbered hp _
  | retireVersions versions =>
    rw [← Option.some.inj ht]
    exact List.foldlRecOn (motive := fun p : Progress γ ε => p.model.Numbered) _ _ hm fun _ hp _ _ => unloadNext_numbered hp _
  | cleanupFailedLoad versions =>
    rw [← Option.some.inj ht]
    exact List.foldlRecOn (motive := fun p : Progress γ ε => p.model.Numbered) _ _ hm fun _ hp _ _ => unloadNext_numbered hp _
  | retireAllVersions =>
    rw [← Option.some.inj ht]
    exact List.foldlRecOn (motive := Numbered) _ _ hm fun _ hm _ _ => numbered_modify hm _ _
  | cleanupAllVersions =>
    rw [← Option.some.inj ht]
    exact List.foldlRecOn (motive := Numbered) _ _ hm fun _ hm _ _ => numbered_modify hm _ _

end Numbered

/-- Once a registered version that fits an `int` has been unloaded last, the default version is right. -/
theorem unloadVersions_highest {unload : ModelInstance γ → ModelInstance γ}
    (hunload : ∀ other, (unload other).status.state ≠ .AVAILABLE) {p : Progress γ ε} (hp : p.model.Numbered)
    {versions : List Int} (hne : versions ≠ [])
    (hversions : ∀ version ∈ versions, version ∈ p.model.modelVersions.keys ∧ toInt version = version) :
    (versions.foldl (unloadNext unload) p).model.DefaultIsHighest := by
  obtain ⟨before, last, rfl⟩ := List.eq_nil_or_concat versions |>.resolve_left hne
  rw [List.concat_eq_append, List.foldl_append]
  have hkeep : (before.foldl (unloadNext unload) p).model.Numbered ∧
      ∀ version ∈ p.model.modelVersions.keys, version ∈ (before.foldl (unloadNext unload) p).model.modelVersions.keys := by
    refine List.foldlRecOn (motive := fun q : Progress γ ε => q.model.Numbered ∧ ∀ version ∈ p.model.modelVersions.keys,
      version ∈ q.model.modelVersions.keys) _ _ ⟨hp, fun _ h => h⟩ fun q hq version _ => ?_
    refine ⟨unloadNext_numbered hq.1 version, fun other hother => ?_⟩
    have hregistered := hq.2 other hother
    unfold unloadNext
    split
    next => exact hregistered
    next =>
      change other ∈ (OrderedMap.modify _ version unload).keys
      rw [OrderedMap.keys_modify]
      exact hregistered
  obtain ⟨hregistered, hfits⟩ := hversions last (by simp)
  obtain ⟨found, hfound⟩ := OrderedMap.mem_keys_iff.mp (hkeep.2 last hregistered)
  rw [List.foldl_cons, List.foldl_nil, unloadNext, hfound]
  exact Settled.unload_highest hkeep.1 hfits hunload

/-- Unloaded versions are not available, and nothing else changes. -/
theorem available_unloadVersions (unload : ModelInstance γ → ModelInstance γ)
    (hunload : ∀ other, (unload other).status.state ≠ .AVAILABLE) {p : Progress γ ε} {versions : List Int}
    (hnodup : versions.Nodup) (hregistered : ∀ version ∈ versions, version ∈ p.model.modelVersions.keys) (version : Int) :
    (versions.foldl (unloadNext unload) p).model.Available version ↔ p.model.Available version ∧ version ∉ versions := by
  obtain ⟨hfind, -⟩ := find?_unloadVersions unload hnodup hregistered
  simp only [Available, hfind]
  split
  next hmem =>
    refine iff_of_false (fun h => ?_) (fun h => h.2 hmem)
    obtain ⟨_, heq, havailable⟩ := h
    obtain ⟨old, -, rfl⟩ := Option.map_eq_some_iff.mp heq
    exact hunload old havailable
  next hmem => rw [and_iff_left hmem]

theorem retireVersions_result {m : Model γ} {versions : List Int} (hnodup : versions.Nodup)
    (hregistered : ∀ version ∈ versions, version ∈ m.modelVersions.keys) :
    (m.retireVersions versions : Progress γ ε).result = .OK :=
  (find?_unloadVersions _ (p := ⟨m, .OK, []⟩) hnodup hregistered).2

theorem cleanupFailedLoad_result {m : Model γ} {versions : List Int} (hnodup : versions.Nodup)
    (hregistered : ∀ version ∈ versions, version ∈ m.modelVersions.keys) :
    (m.cleanupFailedLoad versions : Progress γ ε).result = .OK :=
  (find?_unloadVersions _ (p := ⟨m, .OK, []⟩) hnodup hregistered).2

theorem mem_keys_retireVersions {m : Model γ} {versions : List Int} (hnodup : versions.Nodup)
    (hregistered : ∀ version ∈ versions, version ∈ m.modelVersions.keys) {version : Int} :
    version ∈ (m.retireVersions versions : Progress γ ε).model.modelVersions.keys ↔ version ∈ m.modelVersions.keys := by
  obtain ⟨hfind, -⟩ := find?_unloadVersions (ε := ε) ModelInstance.retireModel (p := ⟨m, .OK, []⟩) hnodup hregistered
  rw [OrderedMap.mem_keys_iff, OrderedMap.mem_keys_iff, retireVersions]
  simp only [hfind]
  split
  next => simp
  next => rfl

theorem retireVersions_highest {m : Model γ} (hm : m.Numbered) {versions : List Int} (hne : versions ≠ [])
    (hregistered : ∀ version ∈ versions, version ∈ m.modelVersions.keys)
    (hfits : ∀ version ∈ versions, toInt version = version) :
    (m.retireVersions versions : Progress γ ε).model.DefaultIsHighest :=
  unloadVersions_highest (p := ⟨m, .OK, []⟩) (by simp [ModelInstance.retireModel]) hm hne
    fun version hversion => ⟨hregistered version hversion, hfits version hversion⟩

theorem cleanupFailedLoad_highest {m : Model γ} (hm : m.Numbered) {versions : List Int} (hne : versions ≠ [])
    (hregistered : ∀ version ∈ versions, version ∈ m.modelVersions.keys)
    (hfits : ∀ version ∈ versions, toInt version = version) :
    (m.cleanupFailedLoad versions : Progress γ ε).model.DefaultIsHighest :=
  unloadVersions_highest (p := ⟨m, .OK, []⟩) (by simp [ModelInstance.cleanupFailedLoad]) hm hne
    fun version hversion => ⟨hregistered version hversion, hfits version hversion⟩

namespace Reload

variable {reload : Reload γ ε} {versions : List Int} {m : Model γ}

theorem reloaded_eq (s : Starting γ ε) : reload.reloaded s =
    s.model.reloadVersions reload.config (reload.attempts s.changes.versionsToReload) s.versionsFailed := by
  unfold reloaded
  split
  next hnil => rw [hnil]; rfl
  next => rfl

theorem retired_eq (s : Starting γ ε) :
    reload.retired s = (reload.reloaded s).model.retireVersions (reload.versionsToRetire s) := by
  unfold retired
  split
  next hnil => rw [hnil]; rfl
  next => rfl

theorem cleanedUp_eq (s : Starting γ ε) :
    reload.cleanedUp s = (reload.retired s).model.cleanupFailedLoad (reload.versionsToCleanup s) := by
  unfold cleanedUp
  split
  next hnil => rw [hnil]; rfl
  next => rfl

theorem mem_unwanted_cases {s : Starting γ ε} {version : Int} :
    version ∈ reload.unwanted s ↔ version ∈ reload.versionsToRetire s ∨ version ∈ reload.versionsToCleanup s := by
  rw [versionsToRetire, versionsToCleanup, List.mem_filter, List.mem_filter, ← and_or_left]
  simp only [decide_eq_true_iff]
  exact (and_iff_left (em' _)).symm

theorem unwanted_registered {s : Starting γ ε} {version : Int} (h : version ∈ reload.unwanted s) :
    version ∈ (reload.reloaded s).model.modelVersions.keys := by
  obtain ⟨-, versionInstance, hfind, -⟩ := mem_versionsToRetire.mp h
  exact OrderedMap.mem_keys_iff.mpr ⟨_, hfind⟩

theorem versionsToRetire_registered {s : Starting γ ε} : ∀ version ∈ reload.versionsToRetire s,
    version ∈ (reload.reloaded s).model.modelVersions.keys :=
  fun _ h => unwanted_registered (mem_unwanted_cases.mpr (.inl h))

theorem retire_nodup (s : Starting γ ε) : (reload.versionsToRetire s).Nodup := versionsToRetire_nodup.filter _

theorem cleanup_nodup (s : Starting γ ε) : (reload.versionsToCleanup s).Nodup := versionsToRetire_nodup.filter _

theorem versionsToCleanup_registered {s : Starting γ ε} : ∀ version ∈ reload.versionsToCleanup s,
    version ∈ (reload.retired s).model.modelVersions.keys := by
  intro version h
  rw [retired_eq, mem_keys_retireVersions (retire_nodup s) versionsToRetire_registered]
  exact unwanted_registered (mem_unwanted_cases.mpr (.inr h))

/-- Every version that is unloaded is registered, so no unload fails. -/
theorem finish_model (s : Starting γ ε) (reloadNeeded : Bool) :
    (reload.finish s reloadNeeded).2 = (reload.cleanedUp s).model := by
  have hretired : (reload.retired s).result = .OK := by
    rw [retired_eq]
    exact retireVersions_result (retire_nodup s) versionsToRetire_registered
  have hcleanedUp : (reload.cleanedUp s).result = .OK := by
    rw [cleanedUp_eq]
    exact cleanupFailedLoad_result (cleanup_nodup s) versionsToCleanup_registered
  unfold finish
  rw [hretired, hcleanedUp]
  dsimp only
  split <;> rfl

/-- What is available in the end was available after the reloads and is asked for. -/
theorem finish_available {s : Starting γ ε} (reloadNeeded : Bool) (version : Int) :
    (reload.finish s reloadNeeded).2.Available version ↔
      (reload.reloaded s).model.Available version ∧ version ∈ reload.policy.filter (reload.leftOver s) := by
  have hretire := available_unloadVersions (ε := ε) ModelInstance.retireModel (by simp [ModelInstance.retireModel])
    (p := ⟨(reload.reloaded s).model, .OK, []⟩) (retire_nodup s) versionsToRetire_registered version
  have hcleanup := available_unloadVersions (ε := ε) ModelInstance.cleanupFailedLoad (by simp [ModelInstance.cleanupFailedLoad])
    (p := ⟨(reload.retired s).model, .OK, []⟩) (cleanup_nodup s) versionsToCleanup_registered version
  rw [finish_model, cleanedUp_eq]
  refine hcleanup.trans ?_
  rw [retired_eq]
  refine (and_congr_left' hretire).trans ?_
  rw [and_assoc, ← not_or, ← mem_unwanted_cases]
  refine and_congr_right fun havailable => ?_
  obtain ⟨versionInstance, hfind, hstate⟩ := havailable
  constructor
  · intro hwanted
    by_contra hnot
    refine hwanted (mem_versionsToRetire.mpr ⟨hnot, versionInstance, hfind, ?_⟩)
    simp [ModelVersionStatus.willEndUnloaded, hstate]
  · intro hasked hunwanted
    exact (mem_versionsToRetire.mp hunwanted).1 hasked

namespace Ready

variable {added : List Int} {s : Starting γ ε} (h : Ready reload versions m added s) (hversions : versions.Nodup)
include h hversions

theorem asked_startable {version : Int} (hasked : version ∈ reload.policy.filter s.availableVersions) :
    version ∈ reload.startable versions m := by
  have hmem := ModelVersionPolicy.filter_subset (h.available_nodup hversions) hasked
  obtain ⟨hversion, hadded⟩ := h.mem_available.mp hmem
  refine List.mem_filter.mpr ⟨hversion, decide_eq_true ?_⟩
  obtain hregistered | hstarted := h.covered version hasked
  · exact .inl hregistered
  · exact .inr (hadded.resolve_left (not_not.mpr hstarted))

theorem firstChoice_iff {version : Int} :
    version ∈ reload.firstChoice versions m ↔ version ∈ reload.policy.filter s.availableVersions :=
  ModelVersionPolicy.filter_outcast (h.available_nodup hversions) (Started.startable_nodup hversions)
    h.startable_subset fun _ => h.asked_startable hversions

/-- The versions that are started in vain are those that would be asked for beside the startable ones. -/
theorem tried_iff {version : Int} : version ∈ reload.tried versions m ↔ version ∈ added ∧ ¬ reload.Loadable version := by
  constructor
  · intro htried
    obtain ⟨hmem, htried⟩ := List.mem_filter.mp htried
    obtain ⟨hnew, hfails, hbeside⟩ := of_decide_eq_true htried
    refine ⟨?_, hfails⟩
    by_contra hnot
    have hout : version ∉ reload.startable versions m := fun hstartable =>
      (of_decide_eq_true (List.mem_filter.mp hstartable).2).elim hnew hfails
    have hsubset : version :: reload.startable versions m ⊆ s.availableVersions :=
      List.cons_subset.mpr ⟨h.mem_available.mpr ⟨hmem, .inl hnot⟩, h.startable_subset⟩
    rw [ModelVersionPolicy.filter_outcast (h.available_nodup hversions)
      (List.nodup_cons.mpr ⟨hout, Started.startable_nodup hversions⟩) hsubset
      fun other hother => List.mem_cons_of_mem _ (h.asked_startable hversions hother)] at hbeside
    exact hout (h.asked_startable hversions hbeside)
  · intro hadded
    exact h.tried version hadded.1 hadded.2

theorem failedReloads_iff {version : Int} :
    version ∈ reload.failedReloads versions m ↔ version ∈ s.changes.versionsToReload ∧ ¬ reload.Loadable version := by
  rw [failedReloads, List.mem_filter, h.firstChoice_iff hversions, decide_eq_true_iff]
  constructor
  · intro hfailed
    obtain ⟨hasked, hneeded, hfails⟩ := hfailed
    rw [Option.any_eq_true] at hneeded
    obtain ⟨versionInstance, hfind, hneeded⟩ := hneeded
    exact ⟨h.needed version versionInstance hasked hfind hneeded, hfails⟩
  · intro hreload
    obtain ⟨hasked, hcause⟩ := h.reloads version hreload.1
    refine ⟨hasked, hcause.resolve_right fun hadded => ?_, hreload.2⟩
    have hmem := ModelVersionPolicy.filter_subset (h.available_nodup hversions) hasked
    exact (h.mem_available.mp hmem).2.elim (fun hnot => hnot hadded) hreload.2

omit hversions in
theorem reloaded_spec :
    (∀ version, (reload.reloaded s).model.modelVersions.find? version = if version ∈ s.changes.versionsToReload then
        some (reload.attempted version) else s.model.modelVersions.find? version) ∧
      (reload.reloaded s).versionsFailed =
        s.versionsFailed ++ s.changes.versionsToReload.filter (¬ reload.Loadable ·) := by
  rw [reloaded_eq]
  refine reload.find?_reloadVersions (p := ⟨s.model, .OK, s.versionsFailed⟩) fun version hversion => h.mem_keys.mpr ?_
  refine (h.reloads version hversion).2.imp_left fun hneeded => ?_
  rw [OrderedMap.mem_keys_iff]
  cases hfind : m.modelVersions.find? version with
  | none => simp [hfind] at hneeded
  | some versionInstance => exact ⟨_, rfl⟩

/-- Nothing failed, or the available versions are sorted. -/
theorem sorted_or (hsearchable : Searchable reload versions) : s.availableVersions.Pairwise (· ≤ ·) ∨
    (∀ version ∈ reload.policy.filter s.availableVersions, reload.Loadable version) ∧ s.versionsFailed = [] := by
  obtain hsorted | hloadable := hsearchable
  · exact .inl (h.available ▸ hsorted.filter _)
  · have hkept : ∀ version ∈ reload.policy.filter versions, version ∈ s.availableVersions := fun version hasked =>
      h.mem_available.mpr ⟨ModelVersionPolicy.filter_subset hversions hasked, .inr (hloadable version hasked)⟩
    have hsubset : s.availableVersions ⊆ versions := fun version hversion => (h.mem_available.mp hversion).1
    have hall : ∀ version ∈ reload.policy.filter s.availableVersions, reload.Loadable version := fun version hasked =>
      hloadable version ((ModelVersionPolicy.filter_outcast hversions (h.available_nodup hversions) hsubset hkept).mp hasked)
    refine .inr ⟨hall, List.eq_nil_iff_forall_not_mem.mpr fun version hfailed => ?_⟩
    -- a version that failed was asked for beside versions among which are all that are asked for
    obtain ⟨hadded, hfails⟩ := (h.failed version).mp (h.lastFailed version hfailed)
    obtain ⟨hmem, htried⟩ := List.mem_filter.mp (h.tried version hadded hfails)
    obtain ⟨hnew, -, hbeside⟩ := of_decide_eq_true htried
    have hout : version ∉ reload.startable versions m := fun hstartable =>
      (of_decide_eq_true (List.mem_filter.mp hstartable).2).elim hnew hfails
    have hbesides : version :: reload.startable versions m ⊆ versions :=
      List.cons_subset.mpr ⟨hmem, List.filter_subset_self _⟩
    rw [ModelVersionPolicy.filter_outcast hversions (List.nodup_cons.mpr ⟨hout, Started.startable_nodup hversions⟩) hbesides
      fun other hother => List.mem_cons_of_mem _ (List.mem_filter.mpr
        ⟨ModelVersionPolicy.filter_subset hversions hother, decide_eq_true (.inr (hloadable other hother))⟩)] at hbeside
    exact hfails (hloadable version hbeside)

theorem leftOver_eq (hsearchable : Searchable reload versions) : reload.leftOver s =
    versions.filter fun version => version ∉ reload.tried versions m ∧ version ∉ reload.failedReloads versions m := by
  have hleft : reload.leftOver s = s.availableVersions.filter fun version =>
      version ∉ s.changes.versionsToReload ∨ reload.Loadable version := by
    unfold leftOver
    rw [h.reloaded_spec.2]
    obtain hsorted | ⟨hall, hnone⟩ := h.sorted_or hversions hsearchable
    · rw [removeFailed_eq hsorted]
      apply List.filter_congr
      intro version hversion
      have hkept : version ∉ s.versionsFailed := fun hfailed => by
        obtain ⟨hadded, hfails⟩ := (h.failed version).mp (h.lastFailed version hfailed)
        exact (h.mem_available.mp hversion).2.elim (fun hnot => hnot hadded) hfails
      rw [decide_eq_decide, List.mem_append, not_or, List.mem_filter, decide_eq_true_iff]
      tauto
    · rw [hnone, List.nil_append]
      exact h.removeFailed_available hversions hsearchable fun version hversion => (h.reloads version hversion).1
  rw [hleft, h.available, List.filter_filter]
  apply List.filter_congr
  intro version _
  rw [← Bool.decide_and, decide_eq_decide, h.tried_iff hversions, h.failedReloads_iff hversions]
  tauto

end Ready

/-- When a call serves what it is asked to. The model is not refused; the versions are sorted, or nothing that is
asked for fails; the versions asked for in the end can be loaded, and are those asked for before the reloads, or available
already; the default version was right; and what is not to be served and has to be unloaded fits an `int`. -/
structure Serves (reload : Reload γ ε) (versions : List Int) (m : Model γ) : Prop where
  accepted : ¬ (reload.isAnyVersionSubscribed = true ∧ reload.isDynamicParameterEnabled reload.config = true)
  searchable : Searchable reload versions
  replaced : ∀ version ∈ reload.lastChoice versions m,
    reload.Loadable version ∧ (version ∈ reload.firstChoice versions m ∨ m.Available version)
  default : m.DefaultIsHighest
  fits : ∀ version, version ∉ reload.toServe versions →
    ((m.modelVersions.find? version).any (!·.status.willEndUnloaded) ∨ version ∈ reload.firstChoice versions m ∨
      version ∈ reload.tried versions m) → version < 2 ^ 31

section Serves

variable (hversions : versions.Nodup) (h : reload.Serves versions m)
include hversions h

theorem Serves.lastChoice_iff {version : Int} :
    version ∈ reload.toServe versions ↔ version ∈ reload.lastChoice versions m := by
  refine ModelVersionPolicy.filter_outcast (hversions.filter _) (hversions.filter _) ?_ ?_
  · intro other hother
    obtain ⟨hmem, hloadable⟩ := List.mem_filter.mp hother
    have hloadable : reload.Loadable other := of_decide_eq_true hloadable
    refine List.mem_filter.mpr ⟨hmem, decide_eq_true ⟨fun htried => ?_, fun hfailed => ?_⟩⟩
    · exact (of_decide_eq_true (List.mem_filter.mp htried).2).2.1 hloadable
    · exact (of_decide_eq_true (List.mem_filter.mp hfailed).2).2 hloadable
  · intro other hother
    have hmem := ModelVersionPolicy.filter_subset (hversions.filter _) hother
    exact List.mem_filter.mpr ⟨(List.mem_filter.mp hmem).1, decide_eq_true (h.replaced other hother).1⟩

variable (hrest : m.AtRest) {added : List Int} {s : Starting γ ε} (hs : Ready reload versions m added s)

omit hversions in
include hrest hs in
/-- What is asked for in the end is available after the reloads. -/
theorem Serves.reloaded_available (hversions : versions.Nodup) {version : Int}
    (hasked : version ∈ reload.lastChoice versions m) : (reload.reloaded s).model.Available version := by
  obtain ⟨hloadable, hcause⟩ := h.replaced version hasked
  have hattempted := attempted_available reload |>.mpr hloadable
  unfold Available
  rw [hs.reloaded_spec.1]
  split
  next => exact ⟨_, rfl, hattempted⟩
  next hnot =>
    rw [hs.find]
    split
    next => exact ⟨_, rfl, hattempted⟩
    next hadded =>
      obtain hfirst | havailable := hcause
      · have hfirst := (hs.firstChoice_iff hversions).mp hfirst
        have hregistered := (hs.covered version hfirst).resolve_right hadded
        obtain ⟨versionInstance, hfind⟩ := OrderedMap.mem_keys_iff.mp hregistered
        refine ⟨versionInstance, hfind, ?_⟩
        -- what is registered and not available would have been reloaded
        by_contra hstate
        refine hnot (hs.needed version versionInstance hfirst hfind ?_)
        have hcause := (hrest version versionInstance hfind).resolve_left hstate
        unfold needsReload
        obtain hended | hfailed := hcause
        · simp [hended]
        · simp [hfailed]
      · exact havailable

include hrest hs in
theorem Serves.finish_available (reloadNeeded : Bool) (version : Int) :
    (reload.finish s reloadNeeded).2.Available version ↔ version ∈ reload.toServe versions := by
  rw [Reload.finish_available, hs.leftOver_eq hversions h.searchable]
  change _ ∧ version ∈ reload.lastChoice versions m ↔ _
  rw [h.lastChoice_iff hversions]
  exact and_iff_right_of_imp (h.reloaded_available hrest hs hversions)

omit hversions h in
theorem reloaded_numbered (hs : s.model.Numbered) : (reload.reloaded s).model.Numbered := by
  rw [reloaded_eq]
  exact List.foldlRecOn (motive := fun p : Progress γ ε => p.model.Numbered) _ _ hs fun _ hp _ _ => reloadNext_numbered hp _

omit hversions h in
theorem toInt_eq {version : Int} (hpositive : 0 < version) (hsmall : version < 2 ^ 31) : toInt version = version := by
  unfold toInt
  rw [Int.bmod_def]
  omega

omit hversions in
include hs in
/-- What the last phase unloads fits an `int`. -/
theorem Serves.unwanted_fits (hversions : versions.Nodup) {version : Int} (hunwanted : version ∈ reload.unwanted s) :
    toInt version = version := by
  have hpositive := reloaded_numbered hs.settled.numbered version (unwanted_registered hunwanted)
  obtain ⟨hnot, versionInstance, hfind, hstate⟩ := mem_versionsToRetire.mp hunwanted
  rw [hs.leftOver_eq hversions h.searchable] at hnot
  refine toInt_eq hpositive (h.fits version (fun hserve => hnot ((h.lastChoice_iff hversions).mp hserve)) ?_)
  rw [hs.reloaded_spec.1] at hfind
  split at hfind
  next hreload => exact .inr (.inl ((hs.firstChoice_iff hversions).mpr (hs.reloads version hreload).1))
  next =>
    rw [hs.find] at hfind
    split at hfind
    next hadded =>
      by_cases hloadable : reload.Loadable version
      · exact .inr (.inl ((hs.firstChoice_iff hversions).mpr (hs.asked version hadded hloadable)))
      · exact .inr (.inr (hs.tried version hadded hloadable))
    next => exact .inl (by simp [hfind, hstate])

include hs in
/-- Where no version is unloaded, no reload has failed. -/
theorem Serves.reloaded_settled (hnone : reload.unwanted s = []) : (reload.reloaded s).model.Settled := by
  have hloadable : ∀ version ∈ s.changes.versionsToReload, reload.Loadable version := by
    intro version hreload
    by_contra hfails
    have hfind := hs.reloaded_spec.1 version
    rw [if_pos hreload] at hfind
    have hunwanted : version ∈ reload.unwanted s := by
      refine mem_versionsToRetire.mpr ⟨fun hasked => ?_, _, hfind, ?_⟩
      · have hmem := ModelVersionPolicy.filter_subset (hs.leftOver_eq hversions h.searchable ▸ hversions.filter _) hasked
        rw [hs.leftOver_eq hversions h.searchable] at hmem
        exact (of_decide_eq_true (List.mem_filter.mp hmem).2).2 ((hs.failedReloads_iff hversions).mpr ⟨hreload, hfails⟩)
      · exact reload.attempted_kept version
    rw [hnone] at hunwanted
    cases hunwanted
  rw [reloaded_eq]
  refine List.foldlRecOn (motive := fun p : Progress γ ε => p.model.Settled) _ _ hs.settled fun p hp attempt hattempt => ?_
  obtain ⟨version, hversion, rfl⟩ := List.mem_map.mp hattempt
  apply reloadNext_settled hp
  intro hfails
  have hloads := hloadable version hversion
  unfold Loadable at hloads
  rw [Option.isNone_iff_eq_none.mp hloads] at hfails
  cases hfails

include hs in
theorem Serves.finish_highest (reloadNeeded : Bool) : (reload.finish s reloadNeeded).2.DefaultIsHighest := by
  have hnumbered : (reload.reloaded s).model.Numbered := reloaded_numbered hs.settled.numbered
  have hfits : ∀ version ∈ reload.unwanted s, toInt version = version :=
    fun _ hunwanted => h.unwanted_fits hs hversions hunwanted
  rw [finish_model, cleanedUp_eq]
  by_cases hcleanup : reload.versionsToCleanup s = []
  · rw [hcleanup, retired_eq]
    change ((reload.reloaded s).model.retireVersions (reload.versionsToRetire s) : Progress γ ε).model.DefaultIsHighest
    by_cases hretire : reload.versionsToRetire s = []
    · rw [hretire]
      refine (h.reloaded_settled hversions hs (List.eq_nil_iff_forall_not_mem.mpr fun version hunwanted => ?_)).highest
      rw [mem_unwanted_cases, hretire, hcleanup] at hunwanted
      exact hunwanted.elim nofun nofun
    · exact retireVersions_highest hnumbered hretire versionsToRetire_registered
        fun version hversion => hfits version (mem_unwanted_cases.mpr (.inl hversion))
  · have hretired : (reload.retired s).model.Numbered := by
      rw [retired_eq]
      exact List.foldlRecOn (motive := fun p : Progress γ ε => p.model.Numbered) _ _ hnumbered
        fun _ hp _ _ => unloadNext_numbered hp _
    exact cleanupFailedLoad_highest hretired hcleanup versionsToCleanup_registered
      fun version hversion => hfits version (mem_unwanted_cases.mpr (.inr hversion))

end Serves

end Reload

/-- The plain decimal name of a version directory. -/
def versionName (number : Nat) : List Char := Nat.toDigits 10 number

theorem versionName_digits {number : Nat} {c : Char} (h : c ∈ versionName number) : c.isDigit :=
  Nat.isDigit_of_mem_toDigits (by decide) (by decide) h

theorem stoll_versionName {number : Nat} (h : number < 2 ^ 63) : stoll (versionName number) = some (number : Int) := by
  obtain ⟨first, rest, hname⟩ : ∃ first rest, versionName number = first :: rest :=
    List.exists_cons_of_ne_nil Nat.toDigits_ne_nil
  have hdigits : ∀ c ∈ first :: rest, c.isDigit := fun c hc => versionName_digits (hname ▸ hc)
  have hfirst : 48 ≤ first.toNat ∧ first.toNat ≤ 57 := by
    simpa [Char.isDigit, UInt32.le_iff_toNat_le] using hdigits first List.mem_cons_self
  have hspace : isSpace first = false := by
    simp only [isSpace, Bool.or_eq_false_iff, Bool.and_eq_false_iff, decide_eq_false_iff_not]
    omega
  have hsign : splitSign (first :: rest) = (false, first :: rest) := by
    unfold splitSign
    split
    next heq =>
      rw [(List.cons.inj heq).1] at hfirst
      exact absurd hfirst (by decide)
    next heq =>
      rw [(List.cons.inj heq).1] at hfirst
      exact absurd hfirst (by decide)
    next => rfl
  have hvalue : Nat.ofDigitChars 10 (first :: rest) 0 = number := hname ▸ Nat.ofDigitChars_ten_toDigits
  have hbound : -2 ^ 63 ≤ (number : Int) ∧ (number : Int) < 2 ^ 63 := by omega
  unfold stoll
  rw [hname, List.dropWhile_cons_of_neg (by simp [hspace]), hsign]
  dsimp only
  rw [List.takeWhile_eq_self_iff.mpr hdigits, if_neg (List.cons_ne_nil _ _), hvalue]
  simp only [Bool.false_eq_true, ↓reduceIte]
  rw [if_pos hbound]

theorem readAvailableVersions_names {numbers : List Nat} (h : ∀ number ∈ numbers, 0 < number ∧ number < 2 ^ 63) :
    readAvailableVersions (numbers.map versionName) = numbers.map Int.ofNat := by
  induction numbers with
  | nil => rfl
  | cons number numbers ih =>
    obtain ⟨hpositive, hlt⟩ := h number List.mem_cons_self
    have hnumber : (stoll (versionName number)).filter (0 < ·) = some (number : Int) := by
      rw [stoll_versionName hlt, Option.filter_some, if_pos (by simpa using hpositive)]
    have hrest := ih fun other hother => h other (List.mem_cons_of_mem _ hother)
    unfold readAvailableVersions at hrest ⊢
    rw [List.map_cons, List.filterMap_cons, hnumber, hrest]
    rfl

namespace Reload

variable {reload : Reload γ ε}

/-- The latest version is asked for, and versions from `limit` on cannot be loaded. -/
def latestBelow (limit : Int) : Reload Unit Unit where
  config := ()
  policy := .latest 1
  isReloadRequired _ _ := false
  isDynamicParameterEnabled _ := false
  isAnyVersionSubscribed := false
  loadError version := if version < limit then none else some ()

theorem latestBelow_serves : (latestBelow 9).Serves ([8, 9].map Int.ofNat) initial where
  accepted := by decide
  searchable := .inl (by decide)
  replaced := by
    have hfirst : ∀ version ∈ (latestBelow 9).lastChoice ([8, 9].map Int.ofNat) initial,
        (latestBelow 9).Loadable version ∧ version ∈ (latestBelow 9).firstChoice ([8, 9].map Int.ofNat) initial := by
      decide
    exact fun version hversion => (hfirst version hversion).imp_right .inl
  default := initial_settled.highest
  fits := by
    have hfirst : ∀ version ∈ (latestBelow 9).firstChoice ([8, 9].map Int.ofNat) initial, version < 2 ^ 31 := by decide
    have htried : ∀ version ∈ (latestBelow 9).tried ([8, 9].map Int.ofNat) initial, version < 2 ^ 31 := by decide
    intro version _ h
    obtain h | h | h := h
    · cases h
    · exact hfirst version h
    · exact htried version h

end Reload

end ModelServer.Model
