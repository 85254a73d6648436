import Mathlib.Algebra.Group.Int.Defs
import Mathlib.Algebra.Group.Nat.Defs
import ModelServer.OrderedMap
import ModelServer.Runs
import Mathlib.Order.Bounds.Basic
import Mathlib.Data.Int.Order.Basic

namespace ModelServer.Model

inductive ModelVersionState
  | START
  | LOADING
  | AVAILABLE
  | UNLOADING
  | END
deriving DecidableEq

inductive ModelVersionStatusErrorCode
  | OK
  | UNKNOWN
  | FAILED_PRECONDITION
deriving DecidableEq

structure ModelVersionStatus where
  state : ModelVersionState
  errorCode : ModelVersionStatusErrorCode
deriving DecidableEq

namespace ModelVersionStatus

def willEndUnloaded (status : ModelVersionStatus) : Bool :=
  match status.state with
  | .UNLOADING | .END => true
  | _ => false

def isFailedLoading (status : ModelVersionStatus) : Bool :=
  decide (status.state = .LOADING ∧ status.errorCode = .UNKNOWN)

end ModelVersionStatus

/-- The status an operation returns; a load that fails returns an error of its own. -/
inductive Status (ε : Type)
  | OK
  | OK_RELOADED
  | UNKNOWN_ERROR
  | REQUESTED_DYNAMIC_PARAMETERS_ON_SUBSCRIBED_MODEL
  | notLoaded (error : ε)
deriving DecidableEq

/-- An instance of a model with a configuration of type `γ`. -/
structure ModelInstance (γ : Type) where
  status : ModelVersionStatus
  config : γ
deriving DecidableEq

variable {γ ε : Type}

namespace ModelInstance

/-- `loadModel` and `reloadModel`; `error` is the error of the load, if it fails. -/
def load (config : γ) (error : Option ε) : ModelInstance γ where
  status := if error.isNone then ⟨.AVAILABLE, .OK⟩ else ⟨.LOADING, .UNKNOWN⟩
  config := config

def retireModel (modelInstance : ModelInstance γ) : ModelInstance γ :=
  { modelInstance with status := ⟨.END, .OK⟩ }

def cleanupFailedLoad (modelInstance : ModelInstance γ) : ModelInstance γ :=
  { modelInstance with status := ⟨.LOADING, .UNKNOWN⟩ }

end ModelInstance

end ModelServer.Model

namespace ModelServer

open Model

/-- The registered versions of a model, and the one that requests without a version are sent to. -/
structure Model (γ : Type) where
  modelVersions : OrderedMap Int (ModelInstance γ)
  defaultVersion : Int

namespace Model

variable {γ ε : Type}

def initial : Model γ := ⟨.empty, 0⟩

/-- A 64-bit version number passed as an `int`. -/
def toInt (version : Int) : Int := version.bmod (2 ^ 32)

def updateDefaultVersion (m : Model γ) (ignoredVersion : Int) : Model γ :=
  { m with defaultVersion := m.modelVersions.entries.foldl (fun newDefaultVersion (version, versionInstance) =>
      if version ≠ ignoredVersion ∧ version > newDefaultVersion ∧ versionInstance.status.state = .AVAILABLE then version
      else newDefaultVersion) 0 }

/-- The instance is created, registered unless the version has one, and loaded. -/
def addVersion (config : γ) (m : Model γ) (version : Int) (error : Option ε) : Status ε × Model γ :=
  let m := { m with modelVersions := m.modelVersions.emplace version (.load config error) }
  match error with
  | some error => (.notLoaded error, m)
  | none => (.OK, m.updateDefaultVersion 0)

/-- What the loops over versions keep. -/
structure Progress (γ ε : Type) where
  model : Model γ
  result : Status ε
  versionsFailed : List Int

/-- One turn of the loop of `addVersions`. -/
def addNext (config : γ) (p : Progress γ ε) (attempt : Int × Option ε) : Progress γ ε :=
  match p.model.addVersion config attempt.1 attempt.2 with
  | (.OK, m) => { p with model := m }
  | (status, m) => ⟨m, status, p.versionsFailed ++ [attempt.1]⟩

/-- The versions are added in turn; the attempts say which loads fail. -/
def addVersions (config : γ) (m : Model γ) (attempts : List (Int × Option ε)) : Progress γ ε :=
  attempts.foldl (addNext config) ⟨m, .OK, []⟩

/-- One turn of the loop of `reloadVersions`. -/
def reloadNext (config : γ) (p : Progress γ ε) (attempt : Int × Option ε) : Progress γ ε :=
  match p.model.modelVersions.find? attempt.1 with
  | none => { p with result := .UNKNOWN_ERROR }
  | some _ =>
    let m := { p.model with modelVersions := p.model.modelVersions.modify attempt.1 fun _ => .load config attempt.2 }
    match attempt.2 with
    | some error => ⟨m, .notLoaded error, p.versionsFailed ++ [attempt.1]⟩
    | none => { p with model := m.updateDefaultVersion 0 }

def reloadVersions (config : γ) (m : Model γ) (attempts : List (Int × Option ε)) (versionsFailed : List Int) :
    Progress γ ε :=
  attempts.foldl (reloadNext config) ⟨m, .OK, versionsFailed⟩

/-- One turn of the loops of `retireVersions` and `cleanupFailedLoad`; `unload` is what becomes of the instance. -/
def unloadNext (unload : ModelInstance γ → ModelInstance γ) (p : Progress γ ε) (version : Int) : Progress γ ε :=
  match p.model.modelVersions.find? version with
  | none => { p with result := .UNKNOWN_ERROR }
  | some _ =>
    let m := p.model.updateDefaultVersion (toInt version)
    { p with model := { m with modelVersions := m.modelVersions.modify version unload } }

def retireVersions (m : Model γ) (versionsToRetire : List Int) : Progress γ ε :=
  versionsToRetire.foldl (unloadNext .retireModel) ⟨m, .OK, []⟩

def cleanupFailedLoad (m : Model γ) (versionsToCleanUp : List Int) : Progress γ ε :=
  versionsToCleanUp.foldl (unloadNext .cleanupFailedLoad) ⟨m, .OK, []⟩

/-- One turn of the loops of `retireAllVersions` and `cleanupAllVersions`. -/
def unloadAny (unload : ModelInstance γ → ModelInstance γ) (m : Model γ) (version : Int) : Model γ :=
  { m with modelVersions := m.modelVersions.modify version unload }.updateDefaultVersion 0

def retireAllVersions (m : Model γ) : Model γ := m.modelVersions.keys.foldl (unloadAny .retireModel) m

def cleanupAllVersions (m : Model γ) : Model γ := m.modelVersions.keys.foldl (unloadAny .cleanupFailedLoad) m

def Available (m : Model γ) (version : Int) : Prop :=
  ∃ versionInstance, m.modelVersions.find? version = some versionInstance ∧ versionInstance.status.state = .AVAILABLE

/-- The greatest of these versions, or 0 if there is none. -/
def IsHighest (versions : Set Int) (version : Int) : Prop :=
  IsGreatest versions version ∨ versions = ∅ ∧ version = 0

def Numbered (m : Model γ) : Prop := ∀ version ∈ m.modelVersions.keys, 0 < version

theorem Available.mem_keys {m : Model γ} {version : Int} (h : m.Available version) : version ∈ m.modelVersions.keys := by
  obtain ⟨versionInstance, hfind, -⟩ := h
  exact OrderedMap.mem_keys_iff.mpr ⟨_, hfind⟩

theorem foldl_highest {α : Type*} (taken : α → Prop) [DecidablePred taken] (version : α → Int) (entries : List α)
    (start : Int) :
    let highest := entries.foldl (fun highest entry =>
      if taken entry ∧ version entry > highest then version entry else highest) start
    start ≤ highest ∧ (highest = start ∨ ∃ entry ∈ entries, taken entry ∧ version entry = highest) ∧
      ∀ entry ∈ entries, taken entry → version entry ≤ highest := by
  induction entries generalizing start with
  | nil => simp
  | cons entry entries ih =>
    simp only [List.foldl_cons]
    obtain ⟨hstart, hfound, hmax⟩ := ih (if taken entry ∧ version entry > start then version entry else start)
    generalize entries.foldl _ _ = highest at hstart hfound hmax
    have hle : start ≤ highest ∧ (taken entry → version entry ≤ highest) := by
      split at hstart
      next h => exact ⟨by omega, fun _ => hstart⟩
      next h => exact ⟨hstart, fun htaken => by have : ¬ version entry > start := fun hgt => h ⟨htaken, hgt⟩; omega⟩
    refine ⟨hle.1, ?_, ?_⟩
    · obtain heq | ⟨found, hmem, hfound⟩ := hfound
      · split at heq
        next h => exact .inr ⟨entry, List.mem_cons_self, h.1, heq.symm⟩
        next => exact .inl heq
      · exact .inr ⟨found, List.mem_cons_of_mem _ hmem, hfound⟩
    · intro other hother htaken
      obtain rfl | hother := List.mem_cons.mp hother
      · exact hle.2 htaken
      · exact hmax other hother htaken

theorem updateDefaultVersion_highest {m : Model γ} (hm : m.Numbered) (ignoredVersion : Int) :
    IsHighest {version | m.Available version ∧ version ≠ ignoredVersion}
      (m.updateDefaultVersion ignoredVersion).defaultVersion := by
  have hfold := foldl_highest
    (fun entry : Int × ModelInstance γ => entry.1 ≠ ignoredVersion ∧ entry.2.status.state = .AVAILABLE) Prod.fst
    m.modelVersions.entries 0
  have heq : (m.updateDefaultVersion ignoredVersion).defaultVersion = m.modelVersions.entries.foldl
      (fun highest entry => if (entry.1 ≠ ignoredVersion ∧ entry.2.status.state = .AVAILABLE) ∧ entry.1 > highest then
        entry.1 else highest) 0 := by
    unfold updateDefaultVersion
    dsimp only
    congr 1
    funext highest entry
    exact if_congr (by tauto) rfl rfl
  rw [heq]
  obtain ⟨-, hfound, hmax⟩ := hfold
  generalize m.modelVersions.entries.foldl _ _ = highest at hfound hmax ⊢
  have hbound : ∀ version, m.Available version ∧ version ≠ ignoredVersion → version ≤ highest := by
    intro version h
    obtain ⟨⟨versionInstance, hfind, havailable⟩, hne⟩ := h
    exact hmax (version, versionInstance) (OrderedMap.mem_entries_iff.mpr hfind) ⟨hne, havailable⟩
  obtain hzero | ⟨entry, hmem, ⟨hne, havailable⟩, hversion⟩ := hfound
  · refine .inr ⟨Set.eq_empty_of_forall_notMem fun version h => ?_, hzero⟩
    have hpositive := hm version h.1.mem_keys
    have hle := hbound version h
    rw [hzero] at hle
    omega
  · refine .inl ⟨?_, hbound⟩
    rw [← hversion]
    exact ⟨⟨entry.2, OrderedMap.mem_entries_iff.mp hmem, havailable⟩, hne⟩

/-- The default version is the highest available one. -/
def DefaultIsHighest (m : Model γ) : Prop := IsHighest {version | m.Available version} m.defaultVersion

/-- With no version ignored the default version becomes the highest available one. -/
theorem updateDefaultVersion_defaultIsHighest {m : Model γ} (hm : m.Numbered) :
    (m.updateDefaultVersion 0).DefaultIsHighest := by
  have hall : {version | m.Available version ∧ version ≠ 0} = {version | m.Available version} := by
    ext version
    refine and_iff_left_of_imp fun h => ?_
    have hpositive := hm version h.mem_keys
    omega
  have hhighest := updateDefaultVersion_highest hm 0
  rwa [hall] at hhighest

theorem DefaultIsHighest.congr {m t : Model γ} (h : m.DefaultIsHighest)
    (hversions : ∀ version, t.Available version ↔ m.Available version) (hdefault : t.defaultVersion = m.defaultVersion) :
    t.DefaultIsHighest := by
  have hsame : {version | t.Available version} = {version | m.Available version} := Set.ext hversions
  unfold DefaultIsHighest
  rw [hdefault, hsame]
  exact h

theorem available_emplace {m : Model γ} {version : Int} {added : ModelInstance γ} (other : Int)
    (hadded : added.status.state ≠ .AVAILABLE) :
    Available { m with modelVersions := m.modelVersions.emplace version added } other ↔ m.Available other := by
  simp only [Available, OrderedMap.find?_emplace]
  split
  next h =>
    have hnone : m.modelVersions.find? other = none := OrderedMap.find?_eq_none_iff.mpr (h.1 ▸ h.2)
    rw [hnone]
    constructor
    · intro h
      obtain ⟨_, heq, havailable⟩ := h
      exact absurd (Option.some.inj heq ▸ havailable) hadded
    · intro h
      obtain ⟨_, heq, -⟩ := h
      cases heq
  next => rfl

theorem available_modify {m : Model γ} {version : Int} {f : ModelInstance γ → ModelInstance γ} (other : Int)
    (hf : ∀ versionInstance, (f versionInstance).status.state ≠ .AVAILABLE) :
    Available { m with modelVersions := m.modelVersions.modify version f } other ↔ m.Available other ∧ other ≠ version := by
  simp only [Available, OrderedMap.find?_modify]
  split
  next h =>
    constructor
    · intro hmodified
      obtain ⟨_, heq, havailable⟩ := hmodified
      obtain ⟨versionInstance, -, rfl⟩ := Option.map_eq_some_iff.mp heq
      exact absurd havailable (hf versionInstance)
    · intro hother
      exact absurd h hother.2
  next h => rw [and_iff_left h]

/-- The highest of these versions is still the highest where another one is left out. -/
theorem IsHighest.ne {versions : Set Int} {highest other : Int} (h : IsHighest versions highest) (hne : other ≠ highest) :
    IsHighest {version | version ∈ versions ∧ version ≠ other} highest := by
  obtain hgreatest | ⟨hempty, hzero⟩ := h
  · exact .inl ⟨⟨hgreatest.1, hne.symm⟩, fun version hversion => hgreatest.2 hversion.1⟩
  · refine .inr ⟨?_, hzero⟩
    rw [hempty]
    simp

theorem IsHighest.unique {versions : Set Int} {highest other : Int} (h : IsHighest versions highest)
    (h' : IsHighest versions other) : highest = other := by
  obtain hgreatest | ⟨hempty, hzero⟩ := h
  · obtain hgreatest' | ⟨hempty', -⟩ := h'
    · exact hgreatest.unique hgreatest'
    · exact absurd hgreatest.1 (hempty' ▸ Set.notMem_empty _)
  · obtain hgreatest' | ⟨-, hzero'⟩ := h'
    · exact absurd hgreatest'.1 (hempty ▸ Set.notMem_empty _)
    · rw [hzero, hzero']

/-- Nothing is the highest of versions without itself, other than 0. -/
theorem IsHighest.ne_of_mem {versions : Set Int} {highest other : Int}
    (h : IsHighest {version | version ∈ versions ∧ version ≠ other} highest) (hother : other ≠ 0) : highest ≠ other := by
  obtain hgreatest | ⟨-, hzero⟩ := h
  · exact hgreatest.1.2
  · exact hzero ▸ hother.symm

/-- A failed reload of this version leaves the default version right. -/
def ReloadKeepsDefault (m : Model γ) (attempt : Int × Option ε) : Prop :=
  attempt.2.isSome → attempt.1 ≠ m.defaultVersion

/-- The default version found while this one is ignored is still right without it. -/
def UnloadKeepsDefault (m : Model γ) (version : Int) : Prop :=
  version ∈ m.modelVersions.keys → toInt version = version ∨ m.defaultVersion = 0 ∨
    version ≠ m.defaultVersion ∧ toInt version ≠ m.defaultVersion

/-- The versions have positive numbers and the default version is the highest available one. -/
structure Settled (m : Model γ) : Prop where
  numbered : m.Numbered
  highest : m.DefaultIsHighest

theorem initial_settled : (initial : Model γ).Settled where
  numbered := by simp [Numbered, initial, OrderedMap.empty, OrderedMap.keys]
  highest := by
    refine .inr ⟨Set.eq_empty_of_forall_notMem fun version h => ?_, rfl⟩
    obtain ⟨_, hfind, -⟩ := h
    cases hfind

theorem numbered_modify {m : Model γ} (hm : m.Numbered) (version : Int) (f : ModelInstance γ → ModelInstance γ) :
    Numbered { m with modelVersions := m.modelVersions.modify version f } := by
  intro other hother
  rw [OrderedMap.keys_modify] at hother
  exact hm other hother

namespace Settled

variable {m : Model γ} (hm : m.Settled)
include hm

theorem addVersion {config : γ} {version : Int} (hversion : 0 < version) (error : Option ε) :
    (m.addVersion config version error).2.Settled := by
  have hnumbered : Numbered { m with modelVersions := m.modelVersions.emplace version (.load config error) } := by
    intro other hother
    obtain rfl | hother := OrderedMap.mem_keys_emplace.mp hother
    · exact hversion
    · exact hm.numbered other hother
  cases error with
  | none => exact ⟨hnumbered, updateDefaultVersion_defaultIsHighest hnumbered⟩
  | some error =>
    exact ⟨hnumbered, hm.highest.congr (fun other => available_emplace other (by simp [ModelInstance.load])) rfl⟩

omit hm in
theorem available_unload (version : Int) {unload : ModelInstance γ → ModelInstance γ}
    (hunload : ∀ other, (unload other).status.state ≠ .AVAILABLE) :
    {other | Available { m.updateDefaultVersion (toInt version) with
        modelVersions := m.modelVersions.modify version unload } other} =
      {other | other ∈ {other | m.Available other} ∧ other ≠ version} := by
  ext other
  exact available_modify other hunload

omit hm in
/-- Where the version fits an `int`, the default version is right after the unload, whatever it was before. -/
theorem unload_highest (hm : m.Numbered) {version : Int} (hfits : toInt version = version)
    {unload : ModelInstance γ → ModelInstance γ} (hunload : ∀ other, (unload other).status.state ≠ .AVAILABLE) :
    DefaultIsHighest { m.updateDefaultVersion (toInt version) with
      modelVersions := m.modelVersions.modify version unload } := by
  have hfound := updateDefaultVersion_highest hm (toInt version)
  unfold DefaultIsHighest
  rw [available_unload version hunload]
  rwa [hfits] at hfound ⊢

theorem ne_zero {version : Int} (hversion : version ∈ m.modelVersions.keys) : version ≠ 0 := by
  have hpositive := hm.numbered version hversion
  omega

/-- A reload that fails leaves the default version right unless it is the default version that is reloaded. -/
theorem reload_failed_iff {version : Int} (hversion : version ∈ m.modelVersions.keys) (config : γ) (error : ε) :
    DefaultIsHighest { m with modelVersions := m.modelVersions.modify version fun _ => .load config (some error) } ↔
      version ≠ m.defaultVersion := by
  have hkept : {other | Available
      { m with modelVersions := m.modelVersions.modify version fun _ => .load config (some error) } other} =
      {other | other ∈ {other | m.Available other} ∧ other ≠ version} := by
    ext other
    exact available_modify other (by simp [ModelInstance.load])
  unfold DefaultIsHighest
  rw [hkept]
  exact ⟨fun h => (h.ne_of_mem (hm.ne_zero hversion)).symm, hm.highest.ne⟩

/-- When an unload leaves the default version right, although the version is passed as an `int`. -/
theorem unload_iff {version : Int} (hversion : version ∈ m.modelVersions.keys)
    {unload : ModelInstance γ → ModelInstance γ} (hunload : ∀ other, (unload other).status.state ≠ .AVAILABLE) :
    DefaultIsHighest { m.updateDefaultVersion (toInt version) with
        modelVersions := m.modelVersions.modify version unload } ↔
      toInt version = version ∨ m.defaultVersion = 0 ∨
        version ≠ m.defaultVersion ∧ toInt version ≠ m.defaultVersion := by
  unfold DefaultIsHighest
  rw [available_unload version hunload]
  have hfound := updateDefaultVersion_highest hm.numbered (toInt version)
  have hhighest := hm.highest
  generalize (m.updateDefaultVersion (toInt version)).defaultVersion = found at hfound ⊢
  constructor
  · intro h
    by_contra hnot
    push Not at hnot
    obtain ⟨htruncated, hdefault, hsame⟩ := hnot
    by_cases hversion' : version = m.defaultVersion
    · -- the default version is not the ignored one, so it is found again
      have hagain := hhighest.ne (show toInt version ≠ m.defaultVersion from hversion' ▸ htruncated)
      exact h.ne_of_mem (hm.ne_zero hversion) (hversion' ▸ hfound.unique hagain)
    · -- the default version is ignored in the place of the unloaded one
      have hagain := hhighest.ne hversion'
      have heq : found = m.defaultVersion := h.unique hagain
      exact hfound.ne_of_mem (hsame hversion' ▸ hdefault) (heq.trans (hsame hversion').symm)
  · intro h
    obtain heq | hzero | ⟨hne, htruncated⟩ := h
    · exact heq ▸ hfound
    · have hempty : {other | m.Available other} = ∅ := by
        obtain hgreatest | ⟨hempty, -⟩ := hhighest
        · exact absurd hzero (hm.ne_zero (Available.mem_keys hgreatest.1))
        · exact hempty
      obtain hgreatest | ⟨-, hnone⟩ := hfound
      · exact absurd hgreatest.1.1 (Set.eq_empty_iff_forall_notMem.mp hempty found)
      · exact .inr ⟨by rw [hempty]; simp, hnone⟩
    · have heq : found = m.defaultVersion := hfound.unique (hhighest.ne htruncated)
      exact heq ▸ hhighest.ne hne

theorem unloadAny {version : Int} {unload : ModelInstance γ → ModelInstance γ} : (m.unloadAny unload version).Settled :=
  ⟨numbered_modify hm.numbered _ _, updateDefaultVersion_defaultIsHighest (numbered_modify hm.numbered _ _)⟩

theorem retireAllVersions : m.retireAllVersions.Settled :=
  List.foldlRecOn _ _ hm fun _ hm _ _ => hm.unloadAny

theorem cleanupAllVersions : m.cleanupAllVersions.Settled :=
  List.foldlRecOn _ _ hm fun _ hm _ _ => hm.unloadAny

end Settled

section Turns

variable {config : γ} {p : Progress γ ε} (hp : p.model.Settled)
include hp

theorem addNext_settled {attempt : Int × Option ε} (hversion : 0 < attempt.1) : (addNext config p attempt).model.Settled := by
  have hadded : (p.model.addVersion config attempt.1 attempt.2).2.Settled := hp.addVersion hversion attempt.2
  unfold addNext
  split
  next m hm =>
    rw [hm] at hadded
    exact hadded
  next status m _ hm =>
    rw [hm] at hadded
    exact hadded

theorem reloadNext_settled {attempt : Int × Option ε} (hkeeps : ReloadKeepsDefault p.model attempt) :
    (reloadNext config p attempt).model.Settled := by
  have hnumbered := numbered_modify hp.numbered attempt.1 fun _ => .load config attempt.2
  unfold reloadNext
  split
  next => exact hp
  next reloaded hfind =>
    have hversion : attempt.1 ∈ p.model.modelVersions.keys := OrderedMap.mem_keys_iff.mpr ⟨_, hfind⟩
    obtain ⟨version, error⟩ := attempt
    cases error with
    | none => exact ⟨hnumbered, updateDefaultVersion_defaultIsHighest hnumbered⟩
    | some error => exact ⟨hnumbered, (hp.reload_failed_iff hversion config error).mpr (hkeeps rfl)⟩

theorem unloadNext_settled {unload : ModelInstance γ → ModelInstance γ}
    (hunload : ∀ other, (unload other).status.state ≠ .AVAILABLE) {version : Int}
    (hkeeps : UnloadKeepsDefault p.model version) : (unloadNext unload p version).model.Settled := by
  unfold unloadNext
  split
  next => exact hp
  next unloaded hfind =>
    have hversion : version ∈ p.model.modelVersions.keys := OrderedMap.mem_keys_iff.mpr ⟨_, hfind⟩
    exact ⟨numbered_modify hp.numbered _ _, (hp.unload_iff hversion hunload).mpr (hkeeps hversion)⟩

end Turns

open Runs

inductive Operation (γ ε : Type)
  | addVersions (config : γ) (attempts : List (Int × Option ε))
  | reloadVersions (config : γ) (attempts : List (Int × Option ε))
  | retireVersions (versions : List Int)
  | cleanupFailedLoad (versions : List Int)
  | retireAllVersions
  | cleanupAllVersions

def step (m : Model γ) : Operation γ ε → Option (Model γ)
  | .addVersions config attempts => some (m.addVersions config attempts).model
  | .reloadVersions config attempts => some (m.reloadVersions config attempts []).model
  | .retireVersions versions => some (m.retireVersions versions : Progress γ ε).model
  | .cleanupFailedLoad versions => some (m.cleanupFailedLoad versions : Progress γ ε).model
  | .retireAllVersions => some m.retireAllVersions
  | .cleanupAllVersions => some m.cleanupAllVersions

/-- The versions that an operation may register have positive numbers. -/
def Positive (_ : Model γ) : Operation γ ε → Prop
  | .addVersions _ attempts => ∀ attempt ∈ attempts, 0 < attempt.1
  | _ => True

/-- Each version, when its turn comes, is reloaded or unloaded without harm to the default version. -/
def KeepsDefault (m : Model γ) : Operation γ ε → Prop
  | .reloadVersions config attempts =>
    Allows (turns (reloadNext config)) (fun p => ReloadKeepsDefault p.model) ⟨m, .OK, []⟩ attempts
  | .retireVersions versions =>
    Allows (turns (unloadNext .retireModel)) (fun p => UnloadKeepsDefault p.model)
      (⟨m, .OK, []⟩ : Progress γ ε) versions
  | .cleanupFailedLoad versions =>
    Allows (turns (unloadNext .cleanupFailedLoad)) (fun p => UnloadKeepsDefault p.model)
      (⟨m, .OK, []⟩ : Progress γ ε) versions
  | _ => True

theorem addVersions_settled {m : Model γ} (hm : m.Settled) {config : γ} {attempts : List (Int × Option ε)}
    (hattempts : ∀ attempt ∈ attempts, 0 < attempt.1) : (m.addVersions config attempts).model.Settled :=
  List.foldlRecOn (motive := fun p : Progress γ ε => p.model.Settled) attempts _ hm
    fun _ hp attempt hattempt => addNext_settled hp (hattempts attempt hattempt)

theorem reloadVersions_settled {m : Model γ} (hm : m.Settled) {config : γ} {attempts : List (Int × Option ε)}
    {versionsFailed : List Int} (hkeeps : Allows (turns (reloadNext config))
      (fun p : Progress γ ε => ReloadKeepsDefault p.model) ⟨m, .OK, versionsFailed⟩ attempts) :
    (m.reloadVersions config attempts versionsFailed).model.Settled :=
  foldl_keeps (fun p : Progress γ ε => p.model.Settled) hkeeps hm fun hp hallowed => reloadNext_settled hp hallowed

theorem unloadVersions_settled {m : Model γ} (hm : m.Settled) {unload : ModelInstance γ → ModelInstance γ}
    (hunload : ∀ other, (unload other).status.state ≠ .AVAILABLE) {versions : List Int}
    (hkeeps : Allows (turns (unloadNext unload)) (fun p => UnloadKeepsDefault p.model)
      (⟨m, .OK, []⟩ : Progress γ ε) versions) :
    (versions.foldl (unloadNext unload) (⟨m, .OK, []⟩ : Progress γ ε)).model.Settled :=
  foldl_keeps (fun p : Progress γ ε => p.model.Settled) hkeeps hm
    fun hp hallowed => unloadNext_settled hp hunload hallowed

theorem step_settled {m t : Model γ} {operation : Operation γ ε} (hm : m.Settled) (hpositive : Positive m operation)
    (hkeeps : KeepsDefault m operation) (ht : step m operation = some t) : t.Settled := by
  cases operation with
  | addVersions config attempts => exact Option.some.inj ht ▸ addVersions_settled hm hpositive
  | reloadVersions config attempts => exact Option.some.inj ht ▸ reloadVersions_settled hm hkeeps
  | retireVersions versions => exact Option.some.inj ht ▸ unloadVersions_settled hm (by simp [ModelInstance.retireModel]) hkeeps
  | cleanupFailedLoad versions =>
    exact Option.some.inj ht ▸ unloadVersions_settled hm (by simp [ModelInstance.cleanupFailedLoad]) hkeeps
  | retireAllVersions => exact Option.some.inj ht ▸ hm.retireAllVersions
  | cleanupAllVersions => exact Option.some.inj ht ▸ hm.cleanupAllVersions

/-- After every operation of a run that keeps the default version, it is the highest available one. -/
theorem default_highest {m : Model γ}
    (h : Reaches (step (ε := ε)) (fun m operation => Positive m operation ∧ KeepsDefault m operation) initial m) :
    m.DefaultIsHighest := by
  have hm : m.Settled := by
    apply h.keeps initial_settled
    intro m t operation hm hallowed ht
    exact step_settled hm hallowed.1 hallowed.2 ht
  exact hm.highest

instance (m : Model γ) (attempt : Int × Option ε) : Decidable (ReloadKeepsDefault m attempt) :=
  inferInstanceAs (Decidable (attempt.2.isSome → attempt.1 ≠ m.defaultVersion))

instance (m : Model γ) (version : Int) : Decidable (UnloadKeepsDefault m version) :=
  inferInstanceAs (Decidable (version ∈ m.modelVersions.keys → _ ∨ _ ∨ _ ∧ _))

instance (m : Model γ) : ∀ operation : Operation γ ε, Decidable (Positive m operation)
  | .addVersions _ attempts => inferInstanceAs (Decidable (∀ attempt ∈ attempts, 0 < attempt.1))
  | .reloadVersions _ _ | .retireVersions _ | .cleanupFailedLoad _ | .retireAllVersions | .cleanupAllVersions =>
    inferInstanceAs (Decidable True)

instance (m : Model γ) : ∀ operation : Operation γ ε, Decidable (KeepsDefault m operation)
  | .reloadVersions _ _ | .retireVersions _ | .cleanupFailedLoad _ => inferInstanceAs (Decidable (Allows _ _ _ _))
  | .addVersions _ _ | .retireAllVersions | .cleanupAllVersions => inferInstanceAs (Decidable True)

/-- Two versions are added, the lower one fails to reload, and the higher one is retired. -/
def retiredHighest : List (Operation Unit Unit) :=
  [.addVersions () [(1, none), (2, none)], .reloadVersions () [(1, some ())], .retireVersions [2]]

theorem default_highest_retiredHighest : ∃ m : Model Unit, run step initial retiredHighest = some m ∧ m.DefaultIsHighest := by
  have hallows : Allows step (fun m operation => Positive m operation ∧ KeepsDefault m operation) initial retiredHighest := by
    decide
  have hrun : run step initial retiredHighest = some _ := rfl
  exact ⟨_, hrun, default_highest (Reaches.run .refl hallows hrun)⟩

/-- The version 2147483648 is passed as an `int`, and stays the default version after it was retired. -/
theorem retired_default : ∃ m : Model Unit, Reaches (step (ε := Unit)) Positive initial m ∧ ¬ m.DefaultIsHighest := by
  let retired : List (Operation Unit Unit) := [.addVersions () [(2147483648, none)], .retireVersions [2147483648]]
  have hallows : Allows step Positive initial retired := by decide
  have hrun : run step initial retired = some _ := rfl
  refine ⟨_, Reaches.run .refl hallows hrun, fun h => ?_⟩
  obtain hgreatest | ⟨-, hzero⟩ := h
  · obtain ⟨versionInstance, hfind, havailable⟩ := hgreatest.1
    cases Option.some.inj hfind
    cases havailable
  · exact absurd hzero (by decide)

end Model

end ModelServer
