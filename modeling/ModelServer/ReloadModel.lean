import ModelServer.Loop
import ModelServer.Model
import ModelServer.PathIndependence
import ModelServer.SortedRanges
import Mathlib.Data.Char
import Mathlib.Data.List.TakeWhile

namespace ModelServer.Model

open SortedRanges

inductive ModelVersionPolicy
  | all
  | specific (specificVersions : List Int)
  | latest (numVersions : Nat)
deriving DecidableEq

def sort (versions : List Int) : List Int := versions.insertionSort (· ≤ ·)

/-- The versions that are to be served, of those that are there. -/
def ModelVersionPolicy.filter (policy : ModelVersionPolicy) (versions : List Int) : List Int :=
  match policy with
  | .all => versions
  | .specific specificVersions => setIntersection (sort versions) (sort specificVersions)
  | .latest numVersions => (versions.insertionSort (· ≥ ·)).take numVersions

def isSpace (c : Char) : Bool := c.toNat = 32 || (9 ≤ c.toNat && c.toNat ≤ 13)

/-- Whether the number is negative, and the text after its sign. -/
def splitSign : List Char → Bool × List Char
  | '-' :: text => (true, text)
  | '+' :: text => (false, text)
  | text => (false, text)

/-- `std::stoll`; there is no number where it throws. -/
def stoll (text : List Char) : Option Int :=
  let (negative, text) := splitSign (text.dropWhile isSpace)
  let digits := text.takeWhile Char.isDigit
  let value : Int := if negative then -Nat.ofDigitChars 10 digits 0 else Nat.ofDigitChars 10 digits 0
  if digits = [] then none
  else if -2 ^ 63 ≤ value ∧ value < 2 ^ 63 then some value
  else none

/-- The versions in the names of these directories, in the order of the names. -/
def readAvailableVersions (dirs : List (List Char)) : List Int :=
  dirs.filterMap fun entry => (stoll entry).filter (0 < ·)

structure VersionsToChange where
  versionsToStart : List Int
  versionsToReload : List Int
  versionsToRetire : List Int
deriving DecidableEq

variable {γ ε : Type}

/-- Whether a registered version that is asked for is loaded again. -/
def needsReload (isReloadRequired : γ → γ → Bool) (newModelConfig : γ) (versionInstance : ModelInstance γ) : Bool :=
  versionInstance.status.willEndUnloaded || versionInstance.status.isFailedLoading ||
    isReloadRequired versionInstance.config newModelConfig

def getVersionsToChange (isReloadRequired : γ → γ → Bool) (newModelConfig : γ)
    (modelVersionsInstances : OrderedMap Int (ModelInstance γ)) (requestedVersions : List Int) : VersionsToChange :=
  let requestedVersions := sort requestedVersions
  let registeredModelVersions := modelVersionsInstances.keys
  { versionsToStart := setDifference requestedVersions registeredModelVersions
    versionsToReload := (setIntersection requestedVersions registeredModelVersions).filter fun version =>
      (modelVersionsInstances.find? version).any (needsReload isReloadRequired newModelConfig)
    versionsToRetire := (setDifference registeredModelVersions requestedVersions).filter fun version =>
      (modelVersionsInstances.find? version).all (!·.status.willEndUnloaded) }

/-- The failed versions are taken out of the available ones, where the search finds them. -/
def removeFailed (availableVersions versionsFailed : List Int) : List Int :=
  versionsFailed.foldl (fun availableVersions version =>
    if binarySearch availableVersions version then availableVersions.filter (· ≠ version) else availableVersions)
    availableVersions

/-- What is fixed during a call of `reloadModelWithVersions`. -/
structure Reload (γ ε : Type) where
  config : γ
  policy : ModelVersionPolicy
  isReloadRequired : γ → γ → Bool
  isDynamicParameterEnabled : γ → Bool
  isAnyVersionSubscribed : Bool
  /-- The error a version fails to load with. -/
  loadError : Int → Option ε

namespace Reload

variable (reload : Reload γ ε)

/-- What the loop that starts versions works on. -/
structure Starting (γ ε : Type) where
  model : Model γ
  availableVersions : List Int
  changes : VersionsToChange
  versionsFailed : List Int
  allFailedVersions : List Int
  blockingStatus : Status ε

def attempts (versions : List Int) : List (Int × Option ε) := versions.map fun version => (version, reload.loadError version)

def getVersionsToChange (m : Model γ) (availableVersions : List Int) : VersionsToChange :=
  Model.getVersionsToChange reload.isReloadRequired reload.config m.modelVersions (reload.policy.filter availableVersions)

/-- Versions failed to load: the policy is asked again without them. -/
def fallBack (s : Starting γ ε) (added : Progress γ ε) : Starting γ ε :=
  let availableVersions := removeFailed s.availableVersions added.versionsFailed
  { model := added.model
    availableVersions
    changes := reload.getVersionsToChange added.model availableVersions
    versionsFailed := added.versionsFailed
    allFailedVersions := s.allFailedVersions ++ added.versionsFailed
    blockingStatus := added.result }

/-- One pass of the loop that starts versions. -/
def start (s : Starting γ ε) : Starting γ ε ⊕ Starting γ ε :=
  if s.changes.versionsToStart = [] then .inr s
  else
    let added := s.model.addVersions reload.config (reload.attempts s.changes.versionsToStart)
    match added.result with
    | .OK => .inr { s with model := added.model, versionsFailed := added.versionsFailed, blockingStatus := .OK }
    | _ => .inl (reload.fallBack s added)

def startVersions (m : Model γ) (availableVersions : List Int) : Starting γ ε :=
  let s : Starting γ ε :=
    ⟨m, availableVersions, reload.getVersionsToChange m availableVersions, [], [], .OK⟩
  Loop.run reload.start (availableVersions.length + 1) s s

/-- The registered versions that need it are reloaded. -/
def reloaded (s : Starting γ ε) : Progress γ ε :=
  if s.changes.versionsToReload = [] then ⟨s.model, .OK, s.versionsFailed⟩
  else s.model.reloadVersions reload.config (reload.attempts s.changes.versionsToReload) s.versionsFailed

/-- The available versions without those that failed. -/
def leftOver (s : Starting γ ε) : List Int := removeFailed s.availableVersions (reload.reloaded s).versionsFailed

def allFailedVersions (s : Starting γ ε) : List Int := s.allFailedVersions ++ (reload.reloaded s).versionsFailed

/-- The registered versions that are not asked for any more. -/
def unwanted (s : Starting γ ε) : List Int :=
  (reload.getVersionsToChange (reload.reloaded s).model (reload.leftOver s)).versionsToRetire

def versionsToCleanup (s : Starting γ ε) : List Int := (reload.unwanted s).filter (· ∈ reload.allFailedVersions s)

def versionsToRetire (s : Starting γ ε) : List Int := (reload.unwanted s).filter (· ∉ reload.allFailedVersions s)

def retired (s : Starting γ ε) : Progress γ ε :=
  if reload.versionsToRetire s = [] then ⟨(reload.reloaded s).model, .OK, []⟩
  else (reload.reloaded s).model.retireVersions (reload.versionsToRetire s)

def cleanedUp (s : Starting γ ε) : Progress γ ε :=
  if reload.versionsToCleanup s = [] then ⟨(reload.retired s).model, .OK, []⟩
  else (reload.retired s).model.cleanupFailedLoad (reload.versionsToCleanup s)

/-- The phases after the loop: reloads, then what is not asked for is retired, or cleaned up where it failed. -/
def finish (s : Starting γ ε) (reloadNeeded : Bool) : Status ε × Model γ :=
  match (reload.retired s).result with
  | .OK =>
    match (reload.cleanedUp s).result with
    | .OK =>
      match (reload.reloaded s).result, s.blockingStatus with
      | .OK, .OK => (if reloadNeeded then .OK_RELOADED else .OK, (reload.cleanedUp s).model)
      | .OK, status => (status, (reload.cleanedUp s).model)
      | status, _ => (status, (reload.cleanedUp s).model)
    | status => (status, (reload.cleanedUp s).model)
  | status => (status, (reload.retired s).model)

/-- `reloadModelWithVersions` for a model without a custom loader, whose base path has these directories. -/
def reloadModelWithVersions (dirs : List (List Char)) (m : Model γ) : Status ε × Model γ :=
  if reload.isAnyVersionSubscribed && reload.isDynamicParameterEnabled reload.config then
    (.REQUESTED_DYNAMIC_PARAMETERS_ON_SUBSCRIBED_MODEL, m)
  else
    let availableVersions := readAvailableVersions dirs
    let changes := reload.getVersionsToChange m availableVersions
    let reloadNeeded := !(changes.versionsToStart.isEmpty && changes.versionsToReload.isEmpty &&
      changes.versionsToRetire.isEmpty)
    reload.finish (reload.startVersions m availableVersions) reloadNeeded

end Reload

theorem mem_sort {version : Int} {versions : List Int} : version ∈ sort versions ↔ version ∈ versions :=
  List.mem_insertionSort _

theorem sort_sorted (versions : List Int) : (sort versions).Pairwise (· ≤ ·) :=
  List.pairwise_insertionSort _ _

theorem sort_strict {versions : List Int} (h : versions.Nodup) : (sort versions).Pairwise (· < ·) := by
  have hnodup : (sort versions).Nodup := (List.perm_insertionSort _ _).nodup_iff.mpr h
  exact (sort_sorted versions).imp₂ (fun _ _ hle hne => lt_of_le_of_ne hle hne) hnodup

/-- The versions of a set that a policy asks for. -/
def ModelVersionPolicy.choose : ModelVersionPolicy → Finset Int → Finset Int
  | .all => id
  | .specific specificVersions => (· ∩ specificVersions.toFinset)
  | .latest numVersions => PathIndependent.greatest numVersions

theorem ModelVersionPolicy.choose_pathIndependent : (policy : ModelVersionPolicy) → PathIndependent policy.choose
  | .all => .id
  | .specific specificVersions => .inter specificVersions.toFinset
  | .latest numVersions => PathIndependent.greatest_pathIndependent numVersions

theorem mem_filter_latest {versions : List Int} (h : versions.Nodup) {numVersions : Nat} {version : Int} :
    version ∈ (versions.insertionSort (· ≥ ·)).take numVersions ↔
      version ∈ PathIndependent.greatest numVersions versions.toFinset := by
  have hperm := List.perm_insertionSort (· ≥ ·) versions
  have hnodup := hperm.nodup_iff.mpr h
  have hdescending : (versions.insertionSort (· ≥ ·)).Pairwise (· > ·) :=
    (List.pairwise_insertionSort (· ≥ ·) versions).imp₂ (fun _ _ hle hne => lt_of_le_of_ne hle hne.symm) hnodup
  have hcard : ((versions.insertionSort (· ≥ ·)).filter (version < ·)).length =
      (versions.toFinset.filter (version < ·)).card := by
    have hfilter : versions.toFinset.filter (version < ·) = (versions.filter (version < ·)).toFinset := by
      rw [List.toFinset_filter]
      simp
    rw [hfilter, List.toFinset_card_of_nodup (h.filter _), (hperm.filter _).length_eq]
  rw [mem_take_iff hdescending, PathIndependent.greatest, Finset.mem_filter, List.mem_toFinset, hperm.mem_iff]
  rw [hcard]

theorem ModelVersionPolicy.mem_filter {policy : ModelVersionPolicy} {versions : List Int} (h : versions.Nodup)
    {version : Int} : version ∈ policy.filter versions ↔ version ∈ policy.choose versions.toFinset := by
  cases policy with
  | all => exact List.mem_toFinset.symm
  | specific specificVersions =>
    rw [ModelVersionPolicy.filter, setIntersection_eq_filter (sort_strict h) (sort_sorted _), List.mem_filter, mem_sort,
      decide_eq_true_iff, mem_sort]
    simp [ModelVersionPolicy.choose]
  | latest numVersions => exact mem_filter_latest h

section Filter

variable {policy : ModelVersionPolicy} {versions fewer : List Int} (h : versions.Nodup) (hfewer : fewer.Nodup)
  (hsubset : fewer ⊆ versions) {version : Int}
include h

theorem ModelVersionPolicy.filter_subset (hversion : version ∈ policy.filter versions) : version ∈ versions := by
  rw [ModelVersionPolicy.mem_filter h] at hversion
  exact List.mem_toFinset.mp (policy.choose_pathIndependent.subset _ hversion)

include hfewer hsubset

omit h hfewer in
theorem toFinset_subset : fewer.toFinset ⊆ versions.toFinset := fun _ hother =>
  List.mem_toFinset.mpr (hsubset (List.mem_toFinset.mp hother))

theorem ModelVersionPolicy.filter_heredity (hversion : version ∈ policy.filter versions) (hmem : version ∈ fewer) :
    version ∈ policy.filter fewer := by
  rw [ModelVersionPolicy.mem_filter h] at hversion
  rw [ModelVersionPolicy.mem_filter hfewer]
  exact policy.choose_pathIndependent.heredity (toFinset_subset hsubset) hversion (List.mem_toFinset.mpr hmem)

/-- Versions that are not asked for can be left out. -/
theorem ModelVersionPolicy.filter_outcast (hkept : ∀ other ∈ policy.filter versions, other ∈ fewer) :
    version ∈ policy.filter fewer ↔ version ∈ policy.filter versions := by
  rw [ModelVersionPolicy.mem_filter h, ModelVersionPolicy.mem_filter hfewer]
  rw [policy.choose_pathIndependent.outcast (fun other hother => List.mem_toFinset.mpr
    (hkept other ((ModelVersionPolicy.mem_filter h).mpr hother))) (toFinset_subset hsubset)]

end Filter

theorem ModelVersionPolicy.filter_nodup (policy : ModelVersionPolicy) {versions : List Int} (h : versions.Nodup) :
    (policy.filter versions).Nodup := by
  cases policy with
  | all => exact h
  | specific specificVersions =>
    rw [ModelVersionPolicy.filter, setIntersection_eq_filter (sort_strict h) (sort_sorted _)]
    exact ((List.perm_insertionSort _ _).nodup_iff.mpr h).filter _
  | latest numVersions =>
    exact ((List.perm_insertionSort _ _).nodup_iff.mpr h).sublist (List.take_sublist _ _)

section VersionsToChange

variable {isReloadRequired : γ → γ → Bool} {config : γ} {instances : OrderedMap Int (ModelInstance γ)} {requested : List Int}
  (h : requested.Nodup) {version : Int}

theorem keys_sorted (instances : OrderedMap Int (ModelInstance γ)) : instances.keys.Pairwise (· ≤ ·) :=
  instances.keys_ordered.imp fun hlt => hlt.le

include h

theorem mem_versionsToStart :
    version ∈ (getVersionsToChange isReloadRequired config instances requested).versionsToStart ↔
      version ∈ requested ∧ version ∉ instances.keys := by
  rw [getVersionsToChange, setDifference_eq_filter (sort_strict h) (keys_sorted _), List.mem_filter, mem_sort,
    decide_eq_true_iff]

theorem mem_versionsToReload :
    version ∈ (getVersionsToChange isReloadRequired config instances requested).versionsToReload ↔
      version ∈ requested ∧
        ∃ versionInstance, instances.find? version = some versionInstance ∧ needsReload isReloadRequired config versionInstance := by
  rw [getVersionsToChange, setIntersection_eq_filter (sort_strict h) (keys_sorted _), List.mem_filter, List.mem_filter,
    mem_sort, decide_eq_true_iff, and_assoc, Option.any_eq_true]
  refine and_congr_right fun _ => and_iff_right_of_imp fun hfind => ?_
  obtain ⟨versionInstance, hfind, -⟩ := hfind
  exact OrderedMap.mem_keys_iff.mpr ⟨_, hfind⟩

omit h in
theorem mem_versionsToRetire :
    version ∈ (getVersionsToChange isReloadRequired config instances requested).versionsToRetire ↔
      version ∉ requested ∧
        ∃ versionInstance, instances.find? version = some versionInstance ∧ versionInstance.status.willEndUnloaded = false := by
  rw [getVersionsToChange, setDifference_eq_filter instances.keys_ordered (sort_sorted _), List.mem_filter, List.mem_filter,
    decide_eq_true_iff, mem_sort, OrderedMap.mem_keys_iff]
  constructor
  · intro hretire
    obtain ⟨⟨⟨versionInstance, hfind⟩, hnot⟩, hstate⟩ := hretire
    refine ⟨hnot, versionInstance, hfind, ?_⟩
    simpa [hfind] using hstate
  · intro hretire
    obtain ⟨hnot, versionInstance, hfind, hstate⟩ := hretire
    exact ⟨⟨⟨versionInstance, hfind⟩, hnot⟩, by simp [hfind, hstate]⟩

theorem versionsToStart_nodup :
    (getVersionsToChange isReloadRequired config instances requested).versionsToStart.Nodup := by
  rw [getVersionsToChange, setDifference_eq_filter (sort_strict h) (keys_sorted _)]
  exact ((List.perm_insertionSort _ _).nodup_iff.mpr h).filter _

omit h in
theorem versionsToRetire_nodup :
    (getVersionsToChange isReloadRequired config instances requested).versionsToRetire.Nodup := by
  rw [getVersionsToChange, setDifference_eq_filter instances.keys_ordered (sort_sorted _)]
  exact ((instances.keys_ordered.imp fun hlt => hlt.ne).filter _).filter _

end VersionsToChange

/-- In a sorted list every failed version is found. -/
theorem removeFailed_eq {availableVersions : List Int} (h : availableVersions.Pairwise (· ≤ ·)) (versionsFailed : List Int) :
    removeFailed availableVersions versionsFailed = availableVersions.filter (· ∉ versionsFailed) := by
  induction versionsFailed generalizing availableVersions with
  | nil => simp [removeFailed]
  | cons version versionsFailed ih =>
    have hfound : (if binarySearch availableVersions version then availableVersions.filter (· ≠ version)
        else availableVersions) = availableVersions.filter (· ≠ version) := by
      split
      next => rfl
      next hnot =>
        symm
        apply List.filter_eq_self.mpr
        intro other hother
        have hne : other ≠ version := fun heq => hnot ((binarySearch_iff h).mpr (heq ▸ hother))
        simpa using hne
    change removeFailed (if _ then _ else _) versionsFailed = _
    rw [hfound, ih (h.filter _), List.filter_filter]
    apply List.filter_congr
    intro other _
    simp [Bool.and_comm]

section Turns

variable (config : γ) {p : Progress γ ε} {version : Int} (error : Option ε)

theorem addNext_spec (hnew : version ∉ p.model.modelVersions.keys) :
    (∀ other, (addNext config p (version, error)).model.modelVersions.find? other =
        if other = version then some (.load config error) else p.model.modelVersions.find? other) ∧
      (addNext config p (version, error)).versionsFailed = p.versionsFailed ++ (if error.isNone then [] else [version]) ∧
      ((addNext config p (version, error)).result = .OK ↔ p.result = .OK ∧ error.isNone) := by
  have hemplace : ∀ other, (p.model.modelVersions.emplace version (.load config error)).find? other =
      if other = version then some (.load config error) else p.model.modelVersions.find? other := by
    intro other
    rw [OrderedMap.find?_emplace]
    simp [hnew]
  unfold addNext addVersion
  cases error with
  | none => exact ⟨hemplace, by simp, by simp⟩
  | some error => exact ⟨hemplace, by simp, by simp⟩

theorem reloadNext_spec (hregistered : version ∈ p.model.modelVersions.keys) :
    (∀ other, (reloadNext config p (version, error)).model.modelVersions.find? other =
        if other = version then some (.load config error) else p.model.modelVersions.find? other) ∧
      (reloadNext config p (version, error)).versionsFailed = p.versionsFailed ++ (if error.isNone then [] else [version]) := by
  obtain ⟨found, hfound⟩ := OrderedMap.mem_keys_iff.mp hregistered
  have hmodify : ∀ other, (p.model.modelVersions.modify version fun _ => .load config error).find? other =
      if other = version then some (.load config error) else p.model.modelVersions.find? other := by
    intro other
    rw [OrderedMap.find?_modify]
    split
    next heq => rw [heq, hfound, Option.map_some]
    next => rfl
  unfold reloadNext
  rw [hfound]
  cases error with
  | none => exact ⟨hmodify, by simp⟩
  | some error => exact ⟨hmodify, by simp⟩

omit config error in
theorem unloadNext_spec (unload : ModelInstance γ → ModelInstance γ) (hregistered : version ∈ p.model.modelVersions.keys) :
    (∀ other, (unloadNext unload p version).model.modelVersions.find? other =
        if other = version then (p.model.modelVersions.find? other).map unload else p.model.modelVersions.find? other) ∧
      (unloadNext unload p version).result = p.result := by
  obtain ⟨found, hfound⟩ := OrderedMap.mem_keys_iff.mp hregistered
  unfold unloadNext
  rw [hfound]
  exact ⟨fun other => OrderedMap.find?_modify, rfl⟩

end Turns

namespace Reload

variable (reload : Reload γ ε)

def Loadable (version : Int) : Prop := (reload.loadError version).isNone

instance (version : Int) : Decidable (reload.Loadable version) := inferInstanceAs (Decidable (_ = true))

/-- The instance of a version after an attempt to load it. -/
def attempted (version : Int) : ModelInstance γ := .load reload.config (reload.loadError version)

theorem attempted_available {version : Int} :
    (reload.attempted version).status.state = .AVAILABLE ↔ reload.Loadable version := by
  unfold attempted ModelInstance.load Loadable
  split
  next h => exact iff_of_true rfl h
  next h => exact iff_of_false nofun h

theorem attempted_kept (version : Int) : (reload.attempted version).status.willEndUnloaded = false := by
  unfold attempted ModelInstance.load
  split <;> rfl

theorem filter_unloadable_cons (version : Int) (versions : List Int) :
    (version :: versions).filter (¬ reload.Loadable ·) =
      (if (reload.loadError version).isNone then [] else [version]) ++ versions.filter (¬ reload.Loadable ·) := by
  rw [List.filter_cons]
  by_cases hload : (reload.loadError version).isNone
  · simp [Loadable, hload]
  · simp [Loadable, hload]

theorem find?_addVersions {versions : List Int} {p : Progress γ ε} (hnodup : versions.Nodup)
    (hnew : ∀ version ∈ versions, version ∉ p.model.modelVersions.keys) :
    let q := (reload.attempts versions).foldl (addNext reload.config) p
    (∀ version, q.model.modelVersions.find? version =
        if version ∈ versions then some (reload.attempted version) else p.model.modelVersions.find? version) ∧
      q.versionsFailed = p.versionsFailed ++ versions.filter (¬ reload.Loadable ·) ∧
      (q.result = .OK ↔ p.result = .OK ∧ ∀ version ∈ versions, reload.Loadable version) := by
  induction versions generalizing p with
  | nil => simp [attempts]
  | cons version versions ih =>
    obtain ⟨hnot, hnodup⟩ := List.nodup_cons.mp hnodup
    obtain ⟨hfind, hfailed, hresult⟩ :=
      addNext_spec reload.config (reload.loadError version) (hnew version List.mem_cons_self)
    have hkeys : ∀ other ∈ versions,
        other ∉ (addNext reload.config p (version, reload.loadError version)).model.modelVersions.keys := by
      intro other hother
      have hne : other ≠ version := fun heq => hnot (heq ▸ hother)
      rw [← OrderedMap.find?_eq_none_iff, hfind, if_neg hne, OrderedMap.find?_eq_none_iff]
      exact hnew other (List.mem_cons_of_mem _ hother)
    obtain ⟨ihfind, ihfailed, ihresult⟩ := ih hnodup hkeys
    refine ⟨?_, ?_, ?_⟩
    · intro other
      refine (ihfind other).trans ?_
      rw [hfind]
      by_cases heq : other = version
      · simp [heq, hnot, attempted]
      · simp [heq]
    · refine ihfailed.trans ?_
      rw [hfailed, filter_unloadable_cons, List.append_assoc]
    · refine ihresult.trans ?_
      rw [hresult, and_assoc, List.forall_mem_cons]
      rfl

theorem addVersions_spec {m : Model γ} {versions : List Int} (hnodup : versions.Nodup)
    (hnew : ∀ version ∈ versions, version ∉ m.modelVersions.keys) :
    (∀ version, (m.addVersions reload.config (reload.attempts versions)).model.modelVersions.find? version =
        if version ∈ versions then some (reload.attempted version) else m.modelVersions.find? version) ∧
      (m.addVersions reload.config (reload.attempts versions)).versionsFailed = versions.filter (¬ reload.Loadable ·) ∧
      ((m.addVersions reload.config (reload.attempts versions)).result = .OK ↔
        ∀ version ∈ versions, reload.Loadable version) := by
  obtain ⟨hfind, hfailed, hresult⟩ := reload.find?_addVersions (p := ⟨m, .OK, []⟩) hnodup hnew
  exact ⟨hfind, hfailed.trans (List.nil_append _), hresult.trans (and_iff_right rfl)⟩

theorem find?_reloadVersions {versions : List Int} {p : Progress γ ε}
    (hregistered : ∀ version ∈ versions, version ∈ p.model.modelVersions.keys) :
    let q := (reload.attempts versions).foldl (reloadNext reload.config) p
    (∀ version, q.model.modelVersions.find? version =
        if version ∈ versions then some (reload.attempted version) else p.model.modelVersions.find? version) ∧
      q.versionsFailed = p.versionsFailed ++ versions.filter (¬ reload.Loadable ·) := by
  induction versions generalizing p with
  | nil => simp [attempts]
  | cons version versions ih =>
    obtain ⟨hfind, hfailed⟩ :=
      reloadNext_spec reload.config (reload.loadError version) (hregistered version List.mem_cons_self)
    have hkeys : ∀ other ∈ versions,
        other ∈ (reloadNext reload.config p (version, reload.loadError version)).model.modelVersions.keys := by
      intro other hother
      rw [OrderedMap.mem_keys_iff, hfind]
      split
      next => exact ⟨_, rfl⟩
      next => exact OrderedMap.mem_keys_iff.mp (hregistered other (List.mem_cons_of_mem _ hother))
    obtain ⟨ihfind, ihfailed⟩ := ih hkeys
    refine ⟨?_, ?_⟩
    · intro other
      refine (ihfind other).trans ?_
      rw [hfind]
      by_cases heq : other = version
      · simp [heq, attempted]
      · simp [heq]
    · refine ihfailed.trans ?_
      rw [hfailed, filter_unloadable_cons, List.append_assoc]

end Reload

theorem find?_unloadVersions (unload : ModelInstance γ → ModelInstance γ) {versions : List Int} {p : Progress γ ε}
    (hnodup : versions.Nodup) (hregistered : ∀ version ∈ versions, version ∈ p.model.modelVersions.keys) :
    let q := versions.foldl (unloadNext unload) p
    (∀ version, q.model.modelVersions.find? version = if version ∈ versions then
        (p.model.modelVersions.find? version).map unload else p.model.modelVersions.find? version) ∧
      q.result = p.result := by
  induction versions generalizing p with
  | nil => simp
  | cons version versions ih =>
    obtain ⟨hnot, hnodup⟩ := List.nodup_cons.mp hnodup
    obtain ⟨hfind, hresult⟩ := unloadNext_spec unload (hregistered version List.mem_cons_self)
    have hkeys : ∀ other ∈ versions, other ∈ (unloadNext unload p version).model.modelVersions.keys := by
      intro other hother
      have hne : other ≠ version := fun heq => hnot (heq ▸ hother)
      rw [OrderedMap.mem_keys_iff, hfind, if_neg hne]
      exact OrderedMap.mem_keys_iff.mp (hregistered other (List.mem_cons_of_mem _ hother))
    obtain ⟨ihfind, ihresult⟩ := ih hnodup hkeys
    refine ⟨?_, ihresult.trans hresult⟩
    intro other
    refine (ihfind other).trans ?_
    rw [hfind]
    by_cases heq : other = version
    · simp [heq, hnot]
    · simp [heq]

end ModelServer.Model
