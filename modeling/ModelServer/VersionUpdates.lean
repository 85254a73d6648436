import ModelServer.ReloadModel
import Mathlib.Logic.Relation

namespace ModelServer.Model

open SortedRanges

variable {γ ε : Type}

/-- Versions are started, reloaded or retired once, and none is started that is registered. -/
structure VersionsToChange.Separate (changes : VersionsToChange) (registered : List Int) : Prop where
  start : changes.versionsToStart.Nodup
  reload : changes.versionsToReload.Nodup
  retire : changes.versionsToRetire.Nodup
  start_reload : changes.versionsToStart.Disjoint changes.versionsToReload
  start_retire : changes.versionsToStart.Disjoint changes.versionsToRetire
  reload_retire : changes.versionsToReload.Disjoint changes.versionsToRetire
  start_registered : changes.versionsToStart.Disjoint registered

section VersionsToChange

variable {isReloadRequired : γ → γ → Bool} {config : γ} {instances : OrderedMap Int (ModelInstance γ)} {requested : List Int}

theorem count_versionsToStart (version : Int) :
    (getVersionsToChange isReloadRequired config instances requested).versionsToStart.count version =
      requested.count version - instances.keys.count version := by
  rw [getVersionsToChange, count_setDifference (sort_sorted _) (keys_sorted _), sort,
    (List.perm_insertionSort _ _).count_eq]

/-- A version that is asked for twice is started twice, or started although it is registered. -/
theorem separate_iff : (getVersionsToChange isReloadRequired config instances requested).Separate instances.keys ↔
    requested.Nodup := by
  have hkeys : instances.keys.Nodup := instances.keys_ordered.imp fun hlt => hlt.ne
  constructor
  · intro h
    rw [List.nodup_iff_count_le_one]
    intro version
    by_contra hcount
    have hstart : (getVersionsToChange isReloadRequired config instances requested).versionsToStart.count version =
        requested.count version - instances.keys.count version := count_versionsToStart version
    by_cases hregistered : version ∈ instances.keys
    · rw [List.count_eq_one_of_mem hkeys hregistered] at hstart
      have hmem : version ∈ (getVersionsToChange isReloadRequired config instances requested).versionsToStart :=
        List.count_pos_iff.mp (by omega)
      exact h.start_registered hmem hregistered
    · rw [List.count_eq_zero_of_not_mem hregistered] at hstart
      have hone := List.nodup_iff_count_le_one.mp h.start version
      omega
  · intro h
    have hregistered {version : Int}
        (hmem : version ∈ (getVersionsToChange isReloadRequired config instances requested).versionsToReload) :
        version ∈ requested ∧ version ∈ instances.keys := by
      obtain ⟨hrequested, found, hfound, -⟩ := (mem_versionsToReload h).mp hmem
      exact ⟨hrequested, OrderedMap.mem_keys_iff.mpr ⟨found, hfound⟩⟩
    refine ⟨versionsToStart_nodup h, ?_, versionsToRetire_nodup, ?_, ?_, ?_, ?_⟩
    · exact ((List.perm_insertionSort _ _).nodup_iff.mpr h).sublist
        (List.filter_sublist.trans (setIntersection_sublist _ _))
    · intro version hstart hreload
      exact ((mem_versionsToStart h).mp hstart).2 (hregistered hreload).2
    · intro version hstart hretire
      exact (mem_versionsToRetire.mp hretire).1 ((mem_versionsToStart h).mp hstart).1
    · intro version hreload hretire
      exact (mem_versionsToRetire.mp hretire).1 (hregistered hreload).1
    · intro version hstart hkey
      exact ((mem_versionsToStart h).mp hstart).2 hkey

end VersionsToChange

/-- What a policy asks for is there, however often it is. -/
theorem ModelVersionPolicy.filter_mem {policy : ModelVersionPolicy} {versions : List Int} {version : Int}
    (h : version ∈ policy.filter versions) : version ∈ versions := by
  cases policy with
  | all => exact h
  | specific specificVersions => exact mem_sort.mp ((setIntersection_sublist _ _).mem h)
  | latest numVersions => exact (List.mem_insertionSort _).mp (List.mem_of_mem_take h)

theorem removeFailed_subset (availableVersions versionsFailed : List Int) :
    removeFailed availableVersions versionsFailed ⊆ availableVersions := by
  induction versionsFailed generalizing availableVersions with
  | nil => exact List.Subset.refl _
  | cons version versionsFailed ih =>
    change removeFailed (if _ then _ else _) versionsFailed ⊆ _
    split
    next => exact List.Subset.trans (ih _) (List.filter_subset_self _)
    next => exact ih _

theorem removeFailed_nodup {availableVersions : List Int} (h : availableVersions.Nodup) (versionsFailed : List Int) :
    (removeFailed availableVersions versionsFailed).Nodup := by
  induction versionsFailed generalizing availableVersions with
  | nil => exact h
  | cons version versionsFailed ih =>
    change (removeFailed (if _ then _ else _) versionsFailed).Nodup
    split
    next => exact ih (h.filter _)
    next => exact ih h

theorem keys_addVersions (config : γ) (m : Model γ) (attempts : List (Int × Option ε)) (version : Int) :
    version ∈ (m.addVersions config attempts).model.modelVersions.keys ↔
      version ∈ m.modelVersions.keys ∨ version ∈ attempts.map Prod.fst := by
  have hnext (p : Progress γ ε) (attempt : Int × Option ε) : (addNext config p attempt).model.modelVersions =
      p.model.modelVersions.emplace attempt.1 (.load config attempt.2) := by
    obtain ⟨version, error⟩ := attempt
    cases error <;> rfl
  have hall (p : Progress γ ε) : version ∈ (attempts.foldl (addNext config) p).model.modelVersions.keys ↔
      version ∈ p.model.modelVersions.keys ∨ version ∈ attempts.map Prod.fst := by
    induction attempts generalizing p with
    | nil => simp
    | cons attempt attempts ih =>
      rw [List.foldl_cons, ih, hnext, OrderedMap.mem_keys_emplace, List.map_cons, List.mem_cons, or_assoc, or_left_comm]
  exact hall ⟨m, .OK, []⟩

/-- The errors of the loads of a call: those of each pass of the loop by the position in the pass and the version, and
those of the reloads. -/
structure Failures (ε : Type) where
  start : Nat → Nat → Int → Option ε
  reload : Nat → Int → Option ε

def attemptsWith (errors : Nat → Int → Option ε) (versions : List Int) : List (Int × Option ε) :=
  versions.mapIdx fun i version => (version, errors i version)

theorem attemptsWith_fst (errors : Nat → Int → Option ε) (versions : List Int) :
    (attemptsWith errors versions).map Prod.fst = versions := by
  apply List.ext_getElem?
  intro i
  rw [attemptsWith, List.getElem?_map, List.getElem?_mapIdx, Option.map_map]
  exact Option.map_id_fun' ▸ rfl

namespace Reload

/-- The state of the loop, with the passes and the versions that were started in them. -/
structure Update (γ ε : Type) where
  pass : Nat
  starting : Starting γ ε
  started : List Int

variable (reload : Reload γ ε) (failures : Failures ε)

/-- One pass of the loop, where any load may fail. -/
def pass (update : Update γ ε) : Update γ ε ⊕ Update γ ε :=
  let s := update.starting
  if s.changes.versionsToStart = [] then .inr update
  else
    let added := s.model.addVersions reload.config (attemptsWith (failures.start update.pass) s.changes.versionsToStart)
    let started := update.started ++ s.changes.versionsToStart
    match added.result with
    | .OK => .inr ⟨update.pass + 1,
        { s with model := added.model, versionsFailed := added.versionsFailed, blockingStatus := .OK }, started⟩
    | _ => .inl ⟨update.pass + 1, reload.fallBack s added, started⟩

def firstUpdate (dirs : List (List Char)) (m : Model γ) : Update γ ε :=
  let availableVersions := readAvailableVersions dirs
  ⟨0, ⟨m, availableVersions, reload.getVersionsToChange m availableVersions, [], [], .OK⟩, []⟩

/-- With loads that fail by their version alone the pass is that of `start`. -/
theorem start_eq_pass (update : Update γ ε) (errors : Nat → Int → Option ε) :
    reload.start update.starting =
      (reload.pass ⟨fun _ _ => reload.loadError, errors⟩ update).map Update.starting Update.starting := by
  have hattempts (versions : List Int) : attemptsWith (fun _ => reload.loadError) versions = reload.attempts versions := by
    rw [attemptsWith, attempts]
    exact List.mapIdx_eq_iff.mpr fun i => by simp
  simp only [start, pass, hattempts]
  split
  next => rfl
  next =>
    generalize update.starting.model.addVersions reload.config (reload.attempts update.starting.changes.versionsToStart) = added
    cases added.result <;> rfl

/-- The states between the passes. -/
def Reached (dirs : List (List Char)) (m : Model γ) : Update γ ε → Prop :=
  Relation.ReflTransGen (fun update next => reload.pass failures update = .inl next) (reload.firstUpdate dirs m)

def Ends (dirs : List (List Char)) (m : Model γ) : Update γ ε → Prop :=
  Loop.Exits (reload.pass failures) (reload.firstUpdate dirs m)

/-- The registered versions that need it are reloaded, where any load may fail. -/
def reloadedWith (s : Starting γ ε) : Progress γ ε :=
  if s.changes.versionsToReload = [] then ⟨s.model, .OK, s.versionsFailed⟩
  else s.model.reloadVersions reload.config (attemptsWith failures.reload s.changes.versionsToReload) s.versionsFailed

/-- The versions that are asked for when the reloads are done. -/
def lastRequested (s : Starting γ ε) : List Int :=
  reload.policy.filter (removeFailed s.availableVersions (reload.reloadedWith failures s).versionsFailed)

/-- The loop ends, every call of `getVersionsToChange` keeps its lists apart, and no version is started twice. -/
structure UpdatesOnce (dirs : List (List Char)) (m : Model γ) : Prop where
  ends : ∃ result, reload.Ends failures dirs m result
  separate : ∀ update, reload.Reached failures dirs m update →
    update.starting.changes.Separate update.starting.model.modelVersions.keys
  separateLast : ∀ result, reload.Ends failures dirs m result →
    (Model.getVersionsToChange reload.isReloadRequired reload.config
      (reload.reloadedWith failures result.starting).model.modelVersions (reload.lastRequested failures result.starting)).Separate
      (reload.reloadedWith failures result.starting).model.modelVersions.keys
  startedOnce : ∀ result, reload.Ends failures dirs m result → result.started.Nodup

/-- Whenever the policy is asked for versions, it names none twice. -/
structure AsksOnce (dirs : List (List Char)) (m : Model γ) : Prop where
  pass : ∀ update, reload.Reached failures dirs m update → (reload.policy.filter update.starting.availableVersions).Nodup
  last : ∀ result, reload.Ends failures dirs m result → (reload.lastRequested failures result.starting).Nodup

variable {reload failures} {dirs : List (List Char)} {m : Model γ}

/-- A pass that goes on has started versions and asks for versions again. -/
theorem pass_inl {update next : Update γ ε} (h : reload.pass failures update = .inl next) :
    ∃ added : Progress γ ε, added = update.starting.model.addVersions reload.config
        (attemptsWith (failures.start update.pass) update.starting.changes.versionsToStart) ∧
      update.starting.changes.versionsToStart ≠ [] ∧ next.starting = reload.fallBack update.starting added ∧
      next.started = update.started ++ update.starting.changes.versionsToStart := by
  simp only [pass] at h
  split at h
  next => cases h
  next hstart =>
    split at h
    next => cases h
    next =>
      cases Sum.inl.inj h
      exact ⟨_, rfl, hstart, rfl, rfl⟩

/-- The last pass has nothing to start, or starts what it has to. -/
theorem pass_inr {update result : Update γ ε} (h : reload.pass failures update = .inr result) :
    (result.started = update.started ∨ result.started = update.started ++ update.starting.changes.versionsToStart) ∧
      result.starting.availableVersions = update.starting.availableVersions := by
  simp only [pass] at h
  split at h
  next =>
    cases Sum.inr.inj h
    exact ⟨.inl rfl, rfl⟩
  next =>
    split at h
    next =>
      cases Sum.inr.inj h
      exact ⟨.inr rfl, rfl⟩
    next => cases h

theorem Reached.changes {update : Update γ ε} (h : reload.Reached failures dirs m update) : update.starting.changes =
    reload.getVersionsToChange update.starting.model update.starting.availableVersions := by
  induction h with
  | refl => rfl
  | tail _ hpass _ =>
    obtain ⟨added, -, -, hnext, -⟩ := pass_inl hpass
    rw [hnext]
    rfl

/-- What is started in a pass is registered when the pass is over. -/
theorem mem_keys_next {update next : Update γ ε} (h : reload.pass failures update = .inl next) (version : Int) :
    version ∈ next.starting.model.modelVersions.keys ↔
      version ∈ update.starting.model.modelVersions.keys ∨ version ∈ update.starting.changes.versionsToStart := by
  obtain ⟨added, hadded, -, hnext, -⟩ := pass_inl h
  rw [hnext]
  show version ∈ added.model.modelVersions.keys ↔ _
  rw [hadded, keys_addVersions, attemptsWith_fst]

theorem Reached.separate_iff {update : Update γ ε} (h : reload.Reached failures dirs m update) :
    update.starting.changes.Separate update.starting.model.modelVersions.keys ↔
      (reload.policy.filter update.starting.availableVersions).Nodup := by
  rw [h.changes]
  exact Model.separate_iff

section AsksOnce

variable (hasks : reload.AsksOnce failures dirs m)
include hasks

theorem Reached.started {update : Update γ ε} (h : reload.Reached failures dirs m update) :
    update.started.Nodup ∧ ∀ version ∈ update.started, version ∈ update.starting.model.modelVersions.keys := by
  induction h with
  | refl => exact ⟨List.nodup_nil, by simp [firstUpdate]⟩
  | @tail update next hreached hpass ih =>
    have hseparate := (Reached.separate_iff hreached).mpr (hasks.pass update hreached)
    obtain ⟨added, -, -, -, hstarted⟩ := pass_inl hpass
    constructor
    · rw [hstarted]
      exact ih.1.append hseparate.start fun version hold hnew => hseparate.start_registered hnew (ih.2 version hold)
    · intro version hversion
      rw [hstarted] at hversion
      rw [mem_keys_next hpass]
      exact (List.mem_append.mp hversion).imp_left (ih.2 version)

/-- Every pass registers a version that was there and not registered. -/
theorem Reached.unregistered_lt {update next : Update γ ε} (h : reload.Reached failures dirs m update)
    (hpass : reload.pass failures update = .inl next) :
    (next.starting.availableVersions.toFinset.filter (· ∉ next.starting.model.modelVersions.keys)).card <
      (update.starting.availableVersions.toFinset.filter (· ∉ update.starting.model.modelVersions.keys)).card := by
  obtain ⟨added, -, hstart, hnext, -⟩ := pass_inl hpass
  obtain ⟨version, hversion⟩ := List.exists_mem_of_ne_nil _ hstart
  have havailable : next.starting.availableVersions ⊆ update.starting.availableVersions := by
    rw [hnext]
    exact removeFailed_subset _ _
  have hkeys := mem_keys_next hpass
  have hrequested := hversion
  rw [h.changes] at hrequested
  obtain ⟨hasked, hnew⟩ := (mem_versionsToStart (hasks.pass update h)).mp hrequested
  apply Finset.card_lt_card
  refine Finset.ssubset_iff_of_subset ?_ |>.mpr ⟨version, ?_, ?_⟩
  · intro other hother
    rw [Finset.mem_filter, List.mem_toFinset] at hother ⊢
    exact ⟨havailable hother.1, fun hkey => hother.2 ((hkeys other).mpr (.inl hkey))⟩
  · rw [Finset.mem_filter, List.mem_toFinset]
    exact ⟨ModelVersionPolicy.filter_mem hasked, hnew⟩
  · rw [Finset.mem_filter, not_and, not_not]
    exact fun _ => (hkeys version).mpr (.inr hversion)

theorem AsksOnce.ends : ∃ result, reload.Ends failures dirs m result :=
  ⟨_, Loop.run_exits_keeping (I := reload.Reached failures dirs m)
    (fun update => (update.starting.availableVersions.toFinset.filter (· ∉ update.starting.model.modelVersions.keys)).card)
    (fun _ _ h hpass => ⟨h.tail hpass, h.unregistered_lt hasks hpass⟩) (reload.firstUpdate dirs m) .refl (Nat.lt_succ_self _)⟩

theorem AsksOnce.startedOnce {result : Update γ ε} (h : reload.Ends failures dirs m result) : result.started.Nodup := by
  refine Loop.Exits.invariant (I := reload.Reached failures dirs m) (Q := fun result => result.started.Nodup)
    (fun _ _ hreached hpass => hreached.tail hpass) ?_ h .refl
  intro update result hreached hpass
  obtain ⟨hnodup, hregistered⟩ := Reached.started hasks hreached
  have hseparate := (Reached.separate_iff hreached).mpr (hasks.pass update hreached)
  rcases (pass_inr hpass).1 with hstarted | hstarted
  · rw [hstarted]
    exact hnodup
  · rw [hstarted]
    exact hnodup.append hseparate.start fun version hold hnew => hseparate.start_registered hnew (hregistered version hold)

end AsksOnce

/-- The loop ends and starts no version twice exactly where the policy never asks for a version twice. -/
theorem updates_once_iff (reload : Reload γ ε) (failures : Failures ε) (dirs : List (List Char)) (m : Model γ) :
    reload.UpdatesOnce failures dirs m ↔ reload.AsksOnce failures dirs m := by
  constructor
  · intro h
    exact ⟨fun update hreached => (Reached.separate_iff hreached).mp (h.separate update hreached),
      fun result hends => Model.separate_iff.mp (h.separateLast result hends)⟩
  · intro hasks
    exact ⟨hasks.ends, fun update hreached => (Reached.separate_iff hreached).mpr (hasks.pass update hreached),
      fun result hends => Model.separate_iff.mpr (hasks.last result hends), fun _ => hasks.startedOnce⟩

theorem Reached.available_nodup (h : (readAvailableVersions dirs).Nodup) {update : Update γ ε}
    (hreached : reload.Reached failures dirs m update) : update.starting.availableVersions.Nodup := by
  induction hreached with
  | refl => exact h
  | tail _ hpass ih =>
    obtain ⟨added, -, -, hnext, -⟩ := pass_inl hpass
    rw [hnext]
    exact removeFailed_nodup ih _

/-- Directories whose names are different numbers are enough. -/
theorem asksOnce_of_nodup (h : (readAvailableVersions dirs).Nodup) : reload.AsksOnce failures dirs m := by
  constructor
  · exact fun update hreached => reload.policy.filter_nodup (Reached.available_nodup h hreached)
  · intro result hends
    have havailable : result.starting.availableVersions.Nodup := by
      refine Loop.Exits.invariant (I := reload.Reached failures dirs m)
        (Q := fun result => result.starting.availableVersions.Nodup) (fun _ _ hreached hpass => hreached.tail hpass) ?_ hends .refl
      intro update result hreached hpass
      rw [(pass_inr hpass).2]
      exact Reached.available_nodup h hreached
    exact reload.policy.filter_nodup (removeFailed_nodup havailable _)

/-- All versions are asked for, and version 9 does not load. -/
def allButNine : Reload Unit Unit where
  config := ()
  policy := .all
  isReloadRequired := fun _ _ => false
  isDynamicParameterEnabled := fun _ => false
  isAnyVersionSubscribed := false
  loadError := fun version => if version = 9 then some () else none

def nineFails : Failures Unit where
  start := fun _ _ => allButNine.loadError
  reload := fun _ => allButNine.loadError

def twoNines : List (List Char) := ["10", "9", "9x"].map String.toList

/-- The state after the first pass: the search does not find version 9 before 10, and one of its two names is asked for
again. -/
structure StartsNine (update : Update Unit Unit) : Prop where
  model : update.starting.model.modelVersions.entries = [(9, .load () (some ())), (10, .load () (none : Option Unit))]
  available : update.starting.availableVersions = [10, 9, 9]
  changes : update.starting.changes.versionsToStart = [9]

theorem StartsNine.next {update : Update Unit Unit} (h : StartsNine update) :
    ∃ next, allButNine.pass nineFails update = .inl next ∧ StartsNine next := by
  obtain ⟨number, s, started⟩ := update
  obtain ⟨hentries, havailable, hstart⟩ := h
  simp only at hentries havailable hstart
  have hkeys : s.model.modelVersions.keys = [9, 10] := congrArg (List.map Prod.fst) hentries
  have hadded : s.model.addVersions () [(9, some ())] = (⟨s.model, .notLoaded (), [9]⟩ : Progress Unit Unit) := by
    obtain ⟨⟨⟨entries, ordered⟩, defaultVersion⟩, _, _, _, _, _⟩ := s
    simp only at hentries
    subst hentries
    rfl
  have hround : allButNine.pass nineFails ⟨number, s, started⟩ =
      .inl ⟨number + 1, allButNine.fallBack s ⟨s.model, .notLoaded (), [9]⟩, started ++ [9]⟩ := by
    have hattempts : attemptsWith (nineFails.start number) [9] = [(9, some ())] := rfl
    simp only [pass, hstart, hattempts]
    rw [if_neg (by decide)]
    simp only [show allButNine.config = () from rfl, hadded]
  have hleft : removeFailed [10, 9, 9] [9] = [10, 9, 9] := by decide
  refine ⟨_, hround, hentries, ?_, ?_⟩
  · rw [fallBack, havailable, hleft]
  · show setDifference (sort (removeFailed s.availableVersions [9])) s.model.modelVersions.keys = [9]
    rw [havailable, hleft, hkeys]
    decide

/-- With two names for a version that does not load the loop has no end. -/
theorem endless : ¬ allButNine.UpdatesOnce nineFails twoNines initial := by
  intro h
  obtain ⟨result, hends⟩ := h.ends
  have hfirst : ∃ next, allButNine.pass nineFails (allButNine.firstUpdate twoNines initial) = .inl next ∧ StartsNine next :=
    ⟨_, rfl, by decide, by decide, by decide⟩
  obtain ⟨second, hpass, hsecond⟩ := hfirst
  cases hends with
  | leave hr => rw [hpass] at hr; cases hr
  | again ht hrest =>
    cases Sum.inl.inj (hpass.symm.trans ht)
    refine Loop.Exits.invariant (I := StartsNine) (Q := fun _ => False) ?_ ?_ hrest hsecond
    · intro update next hnine ht
      obtain ⟨next', hpass', hnext⟩ := hnine.next
      cases Sum.inl.inj (hpass'.symm.trans ht)
      exact hnext
    · intro update result hnine hr
      obtain ⟨next, hpass', -⟩ := hnine.next
      rw [hpass'] at hr
      cases hr

end Reload

end ModelServer.Model
