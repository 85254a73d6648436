import ModelServer.ReloadModel

namespace ModelServer.Model.Reload

variable {γ ε : Type} (reload : Reload γ ε) (versions : List Int) (m : Model γ)

/-- The versions that are registered already or can be loaded. -/
def startable : List Int := versions.filter fun version => version ∈ m.modelVersions.keys ∨ reload.Loadable version

/-- What the policy asks for once the versions that cannot be started are left out. -/
def firstChoice : List Int := reload.policy.filter (reload.startable versions m)

/-- The versions that are started in vain. -/
def tried : List Int :=
  versions.filter fun version => version ∉ m.modelVersions.keys ∧ ¬ reload.Loadable version ∧
    version ∈ reload.policy.filter (version :: reload.startable versions m)

/-- The registered versions that are asked for and reloaded in vain. -/
def failedReloads : List Int :=
  (reload.firstChoice versions m).filter fun version =>
    (m.modelVersions.find? version).any (needsReload reload.isReloadRequired reload.config) ∧ ¬ reload.Loadable version

/-- What the policy asks for once all versions that failed are left out. -/
def lastChoice : List Int :=
  reload.policy.filter (versions.filter fun version =>
    version ∉ reload.tried versions m ∧ version ∉ reload.failedReloads versions m)

/-- What the policy asks for among the versions that can be loaded. -/
def toServe : List Int := reload.policy.filter (versions.filter fun version => reload.Loadable version)

variable {reload versions m}

/-- The loop that starts versions has added these. -/
structure Started (reload : Reload γ ε) (versions : List Int) (m : Model γ) (added : List Int) (s : Starting γ ε) :
    Prop where
  settled : s.model.Settled
  fresh : ∀ version ∈ added, version ∉ m.modelVersions.keys ∧ version ∈ versions
  find : ∀ version, s.model.modelVersions.find? version =
    if version ∈ added then some (reload.attempted version) else m.modelVersions.find? version
  available : s.availableVersions = versions.filter fun version => version ∉ added ∨ reload.Loadable version
  failed : ∀ version, version ∈ s.allFailedVersions ↔ version ∈ added ∧ ¬ reload.Loadable version
  lastFailed : ∀ version ∈ s.versionsFailed, version ∈ s.allFailedVersions
  tried : ∀ version ∈ added, ¬ reload.Loadable version → version ∈ reload.tried versions m
  asked : ∀ version ∈ added, reload.Loadable version → version ∈ reload.policy.filter s.availableVersions

/-- Where nothing fails the order does not matter, and otherwise the versions are sorted. -/
def Searchable (reload : Reload γ ε) (versions : List Int) : Prop :=
  versions.Pairwise (· ≤ ·) ∨ ∀ version ∈ reload.policy.filter versions, reload.Loadable version

namespace Started

variable {added : List Int} {s : Starting γ ε} (h : Started reload versions m added s) (hversions : versions.Nodup)
include h

theorem mem_keys {version : Int} : version ∈ s.model.modelVersions.keys ↔ version ∈ m.modelVersions.keys ∨ version ∈ added := by
  rw [OrderedMap.mem_keys_iff, h.find]
  split
  next hadded => exact iff_of_true ⟨_, rfl⟩ (.inr hadded)
  next hadded => rw [← OrderedMap.mem_keys_iff, or_iff_left hadded]

theorem mem_available {version : Int} :
    version ∈ s.availableVersions ↔ version ∈ versions ∧ (version ∉ added ∨ reload.Loadable version) := by
  rw [h.available, List.mem_filter, decide_eq_true_iff]

include hversions

theorem available_nodup : s.availableVersions.Nodup := h.available ▸ hversions.filter _

omit hversions in
theorem startable_subset : reload.startable versions m ⊆ s.availableVersions := by
  intro version hversion
  obtain ⟨hmem, hstartable⟩ := List.mem_filter.mp hversion
  refine h.mem_available.mpr ⟨hmem, ?_⟩
  obtain hregistered | hloadable := of_decide_eq_true hstartable
  · exact .inl fun hadded => (h.fresh version hadded).1 hregistered
  · exact .inr hloadable

omit h in
theorem startable_nodup : (reload.startable versions m).Nodup := hversions.filter _

/-- What was asked for and cannot be started would still be asked for beside the startable versions. -/
theorem asked_tried {version : Int} (hasked : version ∈ reload.policy.filter s.availableVersions)
    (hnew : version ∉ m.modelVersions.keys) (hfails : ¬ reload.Loadable version) : version ∈ reload.tried versions m := by
  have hmem := ModelVersionPolicy.filter_subset (h.available_nodup hversions) hasked
  have hout : version ∉ reload.startable versions m := by
    intro hstartable
    exact (of_decide_eq_true (List.mem_filter.mp hstartable).2).elim hnew hfails
  have hbeside : version ∈ reload.policy.filter (version :: reload.startable versions m) := by
    refine ModelVersionPolicy.filter_heredity (h.available_nodup hversions)
      (List.nodup_cons.mpr ⟨hout, startable_nodup hversions⟩) ?_ hasked List.mem_cons_self
    exact List.cons_subset.mpr ⟨hmem, h.startable_subset⟩
  exact List.mem_filter.mpr ⟨(h.mem_available.mp hmem).1, decide_eq_true ⟨hnew, hfails, hbeside⟩⟩

/-- The failed versions of an attempt on what is asked for are taken out. -/
theorem removeFailed_available (hsearchable : Searchable reload versions) {tried : List Int}
    (htried : ∀ version ∈ tried, version ∈ reload.policy.filter s.availableVersions) :
    removeFailed s.availableVersions (tried.filter (¬ reload.Loadable ·)) =
      s.availableVersions.filter fun version => version ∉ tried ∨ reload.Loadable version := by
  have hfilter : ∀ version, decide (version ∉ tried.filter (¬ reload.Loadable ·)) =
      decide (version ∉ tried ∨ reload.Loadable version) := by
    intro version
    rw [decide_eq_decide, List.mem_filter, decide_eq_true_iff]
    tauto
  obtain hsorted | hloadable := hsearchable
  · rw [removeFailed_eq (by rw [h.available]; exact hsorted.filter _)]
    simp only [hfilter]
  · -- what is asked for of all versions can be loaded, so nothing of it was left out
    have hkept : ∀ version ∈ reload.policy.filter versions, version ∈ s.availableVersions := fun version hasked =>
      h.mem_available.mpr ⟨ModelVersionPolicy.filter_subset hversions hasked, .inr (hloadable version hasked)⟩
    have hsubset : s.availableVersions ⊆ versions := fun version hversion => (h.mem_available.mp hversion).1
    have hall : ∀ version ∈ tried, reload.Loadable version := by
      intro version hversion
      have hasked := htried version hversion
      rw [ModelVersionPolicy.filter_outcast hversions (h.available_nodup hversions) hsubset hkept] at hasked
      exact hloadable version hasked
    have hnone : tried.filter (¬ reload.Loadable ·) = [] := by
      apply List.filter_eq_nil_iff.mpr
      intro version hversion
      simpa using hall version hversion
    rw [hnone]
    symm
    apply List.filter_eq_self.mpr
    intro version _
    by_cases hversion : version ∈ tried
    · simp [hall version hversion]
    · simp [hversion]

/-- These versions are started: what was asked for and not registered yet. -/
theorem add (hpositive : ∀ version ∈ versions, 0 < version) (hsearchable : Searchable reload versions) {start : List Int}
    (hnodup : start.Nodup)
    (hstart : ∀ version, version ∈ start ↔
      version ∈ reload.policy.filter s.availableVersions ∧ version ∉ s.model.modelVersions.keys) :
    Started reload versions m (added ++ start)
      (reload.fallBack s (s.model.addVersions reload.config (reload.attempts start))) := by
  have hnew : ∀ version ∈ start, version ∉ s.model.modelVersions.keys := fun version hversion => ((hstart version).mp hversion).2
  have hasked : ∀ version ∈ start, version ∈ reload.policy.filter s.availableVersions := fun version hversion =>
    ((hstart version).mp hversion).1
  have hfresh : ∀ version ∈ start, version ∉ m.modelVersions.keys ∧ version ∉ added := by
    intro version hversion
    have hout := hnew version hversion
    rw [h.mem_keys, not_or] at hout
    exact hout
  have hmem : ∀ version ∈ start, version ∈ versions := fun version hversion =>
    (h.mem_available.mp (ModelVersionPolicy.filter_subset (h.available_nodup hversions) (hasked version hversion))).1
  obtain ⟨hfind, hfailed, -⟩ := reload.addVersions_spec hnodup hnew
  have havailable : (reload.fallBack s (s.model.addVersions reload.config (reload.attempts start))).availableVersions =
      s.availableVersions.filter fun version => version ∉ start ∨ reload.Loadable version := by
    simp only [fallBack]
    rw [hfailed, h.removeFailed_available hversions hsearchable hasked]
  refine ⟨?_, ?_, ?_, ?_, ?_, ?_, ?_, ?_⟩
  · apply addVersions_settled h.settled
    intro attempt hattempt
    obtain ⟨version, hversion, rfl⟩ := List.mem_map.mp hattempt
    exact hpositive version (hmem version hversion)
  · intro version hversion
    obtain hversion | hversion := List.mem_append.mp hversion
    · exact h.fresh version hversion
    · exact ⟨(hfresh version hversion).1, hmem version hversion⟩
  · intro version
    refine (hfind version).trans ?_
    rw [h.find]
    by_cases hstarted : version ∈ start
    · simp [hstarted]
    · simp [hstarted]
  · rw [havailable, h.available, List.filter_filter]
    apply List.filter_congr
    intro version _
    rw [← Bool.decide_and, decide_eq_decide, List.mem_append]
    tauto
  · intro version
    simp only [fallBack]
    rw [hfailed, List.mem_append, h.failed, List.mem_filter, decide_eq_true_iff, List.mem_append, ← or_and_right]
  · intro version hversion
    exact List.mem_append_right _ hversion
  · intro version hversion hfails
    obtain hversion | hversion := List.mem_append.mp hversion
    · exact h.tried version hversion hfails
    · exact h.asked_tried hversions (hasked version hversion) (hfresh version hversion).1 hfails
  · intro version hversion hloadable
    have hbefore : version ∈ reload.policy.filter s.availableVersions := by
      obtain hversion | hversion := List.mem_append.mp hversion
      · exact h.asked version hversion hloadable
      · exact hasked version hversion
    have hnodup' := h.available_nodup hversions
    rw [havailable]
    refine ModelVersionPolicy.filter_heredity hnodup' (hnodup'.filter _) (List.filter_subset_self _) hbefore ?_
    exact List.mem_filter.mpr ⟨ModelVersionPolicy.filter_subset hnodup' hbefore, decide_eq_true (.inr hloadable)⟩

end Started

/-- The loop has ended: everything asked for is registered, and what needs it is to be reloaded. -/
structure Ready (reload : Reload γ ε) (versions : List Int) (m : Model γ) (added : List Int) (s : Starting γ ε) : Prop
    extends Started reload versions m added s where
  covered : ∀ version ∈ reload.policy.filter s.availableVersions, version ∈ m.modelVersions.keys ∨ version ∈ added
  reloads : ∀ version ∈ s.changes.versionsToReload, version ∈ reload.policy.filter s.availableVersions ∧
    ((m.modelVersions.find? version).any (needsReload reload.isReloadRequired reload.config) ∨ version ∈ added)
  needed : ∀ version versionInstance, version ∈ reload.policy.filter s.availableVersions →
    m.modelVersions.find? version = some versionInstance →
    needsReload reload.isReloadRequired reload.config versionInstance → version ∈ s.changes.versionsToReload

section Loop

variable (hversions : versions.Nodup) (hpositive : ∀ version ∈ versions, 0 < version)
  (hsearchable : Searchable reload versions)

theorem Started.needed {added : List Int} {s : Starting γ ε} (h : Started reload versions m added s)
    (hversions : versions.Nodup) {version : Int} {versionInstance : ModelInstance γ}
    (hasked : version ∈ reload.policy.filter s.availableVersions)
    (hfind : m.modelVersions.find? version = some versionInstance)
    (hneeded : needsReload reload.isReloadRequired reload.config versionInstance) :
    version ∈ (reload.getVersionsToChange s.model s.availableVersions).versionsToReload := by
  have hold : version ∉ added := fun hadded => (h.fresh version hadded).1 (OrderedMap.mem_keys_iff.mpr ⟨_, hfind⟩)
  refine (mem_versionsToReload (reload.policy.filter_nodup (h.available_nodup hversions))).mpr
    ⟨hasked, versionInstance, ?_, hneeded⟩
  rw [h.find, if_neg hold, hfind]

include hversions hpositive hsearchable

/-- What the loop keeps. -/
def Starts (reload : Reload γ ε) (versions : List Int) (m : Model γ) (s : Starting γ ε) : Prop :=
  ∃ added, Started reload versions m added s ∧ s.changes = reload.getVersionsToChange s.model s.availableVersions

def unregistered (versions : List Int) (s : Starting γ ε) : List Int :=
  versions.filter fun version => version ∉ s.model.modelVersions.keys

theorem start_keeps {s t : Starting γ ε} (hs : Starts reload versions m s) (ht : reload.start s = .inl t) :
    Starts reload versions m t ∧ (unregistered versions t).length < (unregistered versions s).length := by
  obtain ⟨added, h, hchanges⟩ := hs
  have hnodup := reload.policy.filter_nodup (h.available_nodup hversions)
  have hstart : ∀ version, version ∈ s.changes.versionsToStart ↔
      version ∈ reload.policy.filter s.availableVersions ∧ version ∉ s.model.modelVersions.keys := by
    intro version
    rw [hchanges]
    exact mem_versionsToStart hnodup
  have hstartnodup : s.changes.versionsToStart.Nodup := hchanges ▸ versionsToStart_nodup hnodup
  unfold Reload.start at ht
  split at ht
  next => cases ht
  next hsome =>
    dsimp only at ht
    split at ht
    next => cases ht
    next =>
      cases Sum.inl.inj ht
      have hadd := h.add hversions hpositive hsearchable hstartnodup hstart
      refine ⟨⟨_, hadd, rfl⟩, ?_⟩
      generalize reload.fallBack s _ = t at hadd
      -- a started version is counted before the pass and not after it
      obtain ⟨version, hversion⟩ := List.exists_mem_of_ne_nil _ hsome
      obtain ⟨hasked, hnew⟩ := (hstart version).mp hversion
      have hmem := (h.mem_available.mp (ModelVersionPolicy.filter_subset (h.available_nodup hversions) hasked)).1
      have hfewer : unregistered versions t = (unregistered versions s).filter (· ∉ t.model.modelVersions.keys) := by
        unfold unregistered
        rw [List.filter_filter]
        apply List.filter_congr
        intro other _
        rw [← Bool.decide_and, decide_eq_decide]
        refine (and_iff_left_of_imp fun hout hregistered => hout ?_).symm
        exact hadd.mem_keys.mpr ((h.mem_keys.mp hregistered).imp_right (List.mem_append_left _))
      rw [hfewer, List.length_filter_lt_length_iff_exists]
      refine ⟨version, List.mem_filter.mpr ⟨hmem, decide_eq_true hnew⟩, ?_⟩
      simpa using hadd.mem_keys.mpr (.inr (List.mem_append_right _ hversion))

theorem start_leaves {s t : Starting γ ε} (hs : Starts reload versions m s) (ht : reload.start s = .inr t) :
    ∃ added, Ready reload versions m added t := by
  obtain ⟨added, h, hchanges⟩ := hs
  have hnodup := reload.policy.filter_nodup (h.available_nodup hversions)
  have hstart : ∀ version, version ∈ s.changes.versionsToStart ↔
      version ∈ reload.policy.filter s.availableVersions ∧ version ∉ s.model.modelVersions.keys := by
    intro version
    rw [hchanges]
    exact mem_versionsToStart hnodup
  have hreloads : ∀ version ∈ s.changes.versionsToReload, version ∈ reload.policy.filter s.availableVersions ∧
      ((m.modelVersions.find? version).any (needsReload reload.isReloadRequired reload.config) ∨ version ∈ added) := by
    intro version hversion
    rw [hchanges] at hversion
    obtain ⟨hasked, versionInstance, hfind, hneeded⟩ := (mem_versionsToReload hnodup).mp hversion
    refine ⟨hasked, ?_⟩
    rw [h.find] at hfind
    split at hfind
    next hadded => exact .inr hadded
    next => exact .inl (by rw [hfind]; exact hneeded)
  have hneeded : ∀ version versionInstance, version ∈ reload.policy.filter s.availableVersions →
      m.modelVersions.find? version = some versionInstance →
      needsReload reload.isReloadRequired reload.config versionInstance → version ∈ s.changes.versionsToReload :=
    fun version versionInstance hasked hfind hneeded => hchanges ▸ h.needed hversions hasked hfind hneeded
  unfold Reload.start at ht
  split at ht
  next hnil =>
    cases Sum.inr.inj ht
    refine ⟨added, h, fun version hasked => ?_, hreloads, hneeded⟩
    by_contra hout
    have hstarted := (hstart version).mpr ⟨hasked, fun hregistered => hout (h.mem_keys.mp hregistered)⟩
    rw [hnil] at hstarted
    cases hstarted
  next =>
    dsimp only at ht
    split at ht
    next hok =>
      cases Sum.inr.inj ht
      have hstartnodup : s.changes.versionsToStart.Nodup := hchanges ▸ versionsToStart_nodup hnodup
      have hadd := h.add hversions hpositive hsearchable hstartnodup hstart
      obtain ⟨-, hfailed, hresult⟩ := reload.addVersions_spec (m := s.model) hstartnodup
        fun version hversion => ((hstart version).mp hversion).2
      have hnone : s.changes.versionsToStart.filter (¬ reload.Loadable ·) = [] := by
        apply List.filter_eq_nil_iff.mpr
        intro version hversion
        simpa using hresult.mp hok version hversion
      rw [hnone] at hfailed
      have havailable := hadd.available
      have hallFailed := hadd.failed
      have hasked := hadd.asked
      simp only [fallBack, hfailed, removeFailed, List.foldl_nil, List.append_nil] at havailable hallFailed hasked
      refine ⟨added ++ s.changes.versionsToStart,
        ⟨hadd.settled, hadd.fresh, hadd.find, havailable, hallFailed, ?_, hadd.tried, hasked⟩, ?_, ?_, hneeded⟩
      · intro version hversion
        rw [show _ = [] from hfailed] at hversion
        cases hversion
      · intro version hasked
        by_cases hregistered : version ∈ s.model.modelVersions.keys
        · exact (h.mem_keys.mp hregistered).imp_right (List.mem_append_left _)
        · exact .inr (List.mem_append_right _ ((hstart version).mpr ⟨hasked, hregistered⟩))
      · intro version hversion
        exact (hreloads version hversion).imp_right (.imp_right (List.mem_append_left _))
    next => cases ht

/-- The loop ends, with everything that is asked for registered. -/
theorem startVersions_ready (hm : m.Settled) : ∃ added, Ready reload versions m added (reload.startVersions m versions) := by
  have hinitial : Starts reload versions m ⟨m, versions, reload.getVersionsToChange m versions, [], [], .OK⟩ := by
    refine ⟨[], ⟨hm, by simp, by simp, by simp, by simp, by simp, by simp, by simp⟩, rfl⟩
  have hexits : Loop.Exits reload.start _ (reload.startVersions m versions) :=
    Loop.run_exits_keeping (I := Starts reload versions m) (fun s => (unregistered versions s).length)
      (fun s t hs ht => start_keeps hversions hpositive hsearchable hs ht) _ hinitial
      (Nat.lt_succ_of_le (List.length_filter_le _ _))
  exact hexits.invariant (fun s t hs ht => (start_keeps hversions hpositive hsearchable hs ht).1)
    (fun s t hs ht => start_leaves hversions hpositive hsearchable hs ht) hinitial

end Loop

end ModelServer.Model.Reload
