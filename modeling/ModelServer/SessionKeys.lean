import ModelServer.Subsessions

namespace ModelServer.NodeSessionMetadata

/-- The levels from the innermost on, `j` of them behind, with what is written of the key. -/
def writeLevels (metadata : NodeSessionMetadata) (ignoredNodeNames : Finset String) :
    List String → Nat → String → Except String String
  | [], _, ss => .ok ss
  | level :: levels, j, ss =>
    if 0 < ignoredNodeNames.card ∧ j < ignoredNodeNames.card ∧
        ignoredNodeNames.card ≤ metadata.sessionsLevels.length ∧ level ∉ ignoredNodeNames then
      .error "Cannot collapse sessions not in LIFO order"
    else if j < ignoredNodeNames.card then writeLevels metadata ignoredNodeNames levels (j + 1) ss
    else match metadata.detailsAt level with
      | .error message => .error message
      | .ok (id, _) => writeLevels metadata ignoredNodeNames levels (j + 1)
          ((if ss = "" then ss else ss ++ "_") ++ (level ++ "_" ++ toString id))

def createSessionKey (metadata : NodeSessionMetadata) (ignoredNodeNames : Finset String) : Except String String :=
  if metadata.details.isEmpty then .ok ""
  else if ∃ name ∈ ignoredNodeNames, metadata.details.lookup name = none then
    .error "Tried to create session key ignoring non-existing subsession"
  else metadata.writeLevels ignoredNodeNames metadata.sessionsLevels.reverse 0 ""

/-- Levels that are ignored leave no text behind. -/
theorem writeLevels_ignored (metadata : NodeSessionMetadata) (ignoredNodeNames : Finset String)
    {ignored rest : List String} {j : Nat} (hcard : j + ignored.length = ignoredNodeNames.card)
    (hin : ∀ level ∈ ignored, level ∈ ignoredNodeNames) (ss : String) :
    metadata.writeLevels ignoredNodeNames (ignored ++ rest) j ss =
      metadata.writeLevels ignoredNodeNames rest ignoredNodeNames.card ss := by
  induction ignored generalizing j with
  | nil =>
    rw [← hcard]
    rfl
  | cons level ignored ih =>
    rw [List.length_cons] at hcard
    have hlevel := hin level List.mem_cons_self
    rw [List.cons_append, writeLevels, if_neg (by simp [hlevel]), if_pos (by omega)]
    exact ih (by omega) fun level' hm => hin level' (List.mem_cons_of_mem _ hm)

/-- A level that is not ignored, among as many of the innermost levels as are ignored. -/
theorem writeLevels_refused {metadata : NodeSessionMetadata} {ignoredNodeNames : Finset String}
    (hfit : ignoredNodeNames.card ≤ metadata.sessionsLevels.length) {levels : List String} {j : Nat} {level : String}
    (hm : level ∈ levels.take (ignoredNodeNames.card - j)) (hout : level ∉ ignoredNodeNames) (ss : String) :
    metadata.writeLevels ignoredNodeNames levels j ss = .error "Cannot collapse sessions not in LIFO order" := by
  induction levels generalizing j with
  | nil =>
    rw [List.take_nil] at hm
    cases hm
  | cons level' levels ih =>
    obtain ⟨left, hleft⟩ : ∃ left, ignoredNodeNames.card - j = left + 1 := by
      cases hcount : ignoredNodeNames.card - j with
      | zero =>
        rw [hcount] at hm
        cases hm
      | succ left => exact ⟨left, rfl⟩
    rw [hleft, List.take_succ_cons] at hm
    rw [writeLevels]
    split
    next => rfl
    next hrefused =>
      have hlevel' : level' ∈ ignoredNodeNames := by
        by_contra hlevel'
        exact hrefused ⟨by omega, by omega, hfit, hlevel'⟩
      rw [if_pos (by omega)]
      apply ih
      rcases List.mem_cons.mp hm with rfl | hm
      · exact absurd hlevel' hout
      · have hnext : ignoredNodeNames.card - (j + 1) = left := by omega
        rw [hnext]
        exact hm

theorem writeLevels_cons (metadata : NodeSessionMetadata) {ignoredNodeNames : Finset String} (level : String)
    (levels : List String) {j : Nat} (hj : ignoredNodeNames.card ≤ j) (ss : String) :
    metadata.writeLevels ignoredNodeNames (level :: levels) j ss = match metadata.detailsAt level with
      | .error message => .error message
      | .ok (id, _) => metadata.writeLevels ignoredNodeNames levels (j + 1)
          ((if ss = "" then ss else ss ++ "_") ++ (level ++ "_" ++ toString id)) := by
  rw [writeLevels, if_neg (by omega), if_neg (by omega)]

/-- What is written of levels that are not ignored depends only on their ids. -/
theorem writeLevels_congr {metadata metadata' : NodeSessionMetadata} {ignored ignored' : Finset String}
    {levels : List String} (hsame : ∀ level ∈ levels, metadata.detailsAt level = metadata'.detailsAt level)
    {j j' : Nat} (hj : ignored.card ≤ j) (hj' : ignored'.card ≤ j') (ss : String) :
    metadata.writeLevels ignored levels j ss = metadata'.writeLevels ignored' levels j' ss := by
  induction levels generalizing j j' ss with
  | nil => rfl
  | cons level levels ih =>
    rw [writeLevels_cons _ _ _ hj, writeLevels_cons _ _ _ hj', hsame level List.mem_cons_self]
    split
    next => rfl
    next => exact ih (fun level' hm => hsame level' (List.mem_cons_of_mem _ hm)) (by omega) (by omega) _

/-- The key of a session that is collapsed is the key of the session above. -/
theorem createSessionKey_below {metadata : NodeSessionMetadata} {levels : List (String × Nat)} {index : List Nat}
    (h : Fresh metadata levels) (hlength : index.length = levels.length)
    (hempty : metadata.details = [] → metadata.sessionsLevels = []) :
    (below metadata levels index).createSessionKey (levels.map Prod.fst).toFinset = metadata.createSessionKey ∅ := by
  rcases List.eq_nil_or_concat levels with rfl | ⟨_, _, rfl⟩
  · simp [below]
  · rename_i front last
    generalize hlevels : front.concat last = levels at h hlength
    have hne : levels ≠ [] := by
      rw [← hlevels, List.concat_eq_append]
      simp
    have hdetails : (below metadata levels index).details ≠ [] := by
      show metadata.details ++ entries levels index ≠ []
      have hpos : (entries levels index).length ≠ 0 := by
        rw [← List.length_map (f := Prod.fst), entries_fst hlength, List.length_map]
        exact List.length_eq_zero_iff.not.mpr hne
      intro hnil
      rw [(List.append_eq_nil_iff.mp hnil).2] at hpos
      exact hpos rfl
    have hexists : ¬ ∃ name ∈ (levels.map Prod.fst).toFinset,
        (below metadata levels index).details.lookup name = none := by
      rintro ⟨name, hm, hnone⟩
      rw [lookup_below h hlength (List.mem_toFinset.mp hm)] at hnone
      cases hnone
    have hreverse : (below metadata levels index).sessionsLevels.reverse =
        (levels.map Prod.fst).reverse ++ metadata.sessionsLevels.reverse := List.reverse_append
    have hsame : ∀ level ∈ metadata.sessionsLevels.reverse,
        (below metadata levels index).detailsAt level = metadata.detailsAt level := by
      intro level hm
      have hnew : level ∉ levels.map Prod.fst := by
        intro hin
        obtain ⟨level', hlevel', rfl⟩ := List.mem_map.mp hin
        exact h.unlisted level' hlevel' (List.mem_reverse.mp hm)
      rw [detailsAt, detailsAt, lookup_above hlength hnew]
    unfold createSessionKey
    rw [if_neg (by simpa using hdetails), if_neg hexists, hreverse,
      writeLevels_ignored _ _ (by simp [card_names h]) (by simp)]
    split
    next hnil =>
      rw [hempty (by simpa using hnil)]
      rfl
    next =>
      rw [if_neg (by simp)]
      exact writeLevels_congr hsame le_rfl (by simp) ""

section Text

/-- What follows the text of other levels in a key. -/
def followingText : List (String × Nat) → String
  | [] => ""
  | (level, id) :: levels => "_" ++ (level ++ "_" ++ toString id) ++ followingText levels

/-- The text of a key: the levels with their ids, the innermost first. -/
def levelsText : List (String × Nat) → String
  | [] => ""
  | (level, id) :: levels => level ++ "_" ++ toString id ++ followingText levels

theorem append_ne_empty (s level : String) (id : Nat) : s ++ (level ++ "_" ++ toString id) ≠ "" := by
  intro h
  have hlist := congrArg String.toList h
  simp at hlist

theorem writeLevels_following {metadata : NodeSessionMetadata} {levels : List String} {ids : String → Nat}
    (hids : ∀ level ∈ levels, ∃ size, metadata.detailsAt level = .ok (ids level, size)) (j : Nat) {ss : String}
    (hss : ss ≠ "") :
    metadata.writeLevels ∅ levels j ss = .ok (ss ++ followingText (levels.map fun level => (level, ids level))) := by
  induction levels generalizing j ss with
  | nil => simp [writeLevels, followingText]
  | cons level levels ih =>
    obtain ⟨size, hsize⟩ := hids level List.mem_cons_self
    rw [writeLevels_cons _ _ _ (by simp), hsize]
    show metadata.writeLevels ∅ levels (j + 1) _ = _
    rw [if_neg hss, ih (fun level' hm => hids level' (List.mem_cons_of_mem _ hm)) _ (append_ne_empty _ _ _),
      List.map_cons, followingText]
    simp only [String.append_assoc]

theorem createSessionKey_eq {metadata : NodeSessionMetadata} {ids : String → Nat}
    (hids : ∀ level ∈ metadata.sessionsLevels, ∃ size, metadata.detailsAt level = .ok (ids level, size))
    (hempty : metadata.details = [] → metadata.sessionsLevels = []) :
    metadata.createSessionKey ∅ =
      .ok (levelsText (metadata.sessionsLevels.reverse.map fun level => (level, ids level))) := by
  unfold createSessionKey
  split
  next hnil =>
    rw [hempty (by simpa using hnil)]
    rfl
  next =>
    rw [if_neg (by simp)]
    have hreverse : ∀ level ∈ metadata.sessionsLevels.reverse,
        ∃ size, metadata.detailsAt level = .ok (ids level, size) := fun level hm => hids level (List.mem_reverse.mp hm)
    generalize metadata.sessionsLevels.reverse = levels at hreverse
    cases levels with
    | nil => rfl
    | cons level levels =>
      obtain ⟨size, hsize⟩ := hreverse level List.mem_cons_self
      rw [writeLevels_cons _ _ _ (by simp), hsize]
      show metadata.writeLevels ∅ levels 1 _ = _
      rw [if_pos rfl, writeLevels_following (fun level' hm => hreverse level' (List.mem_cons_of_mem _ hm)) _
        (append_ne_empty _ _ _), String.empty_append]
      rfl

/-- A number ends where the next level begins. -/
theorem toString_append_inj {id id' : Nat} {rest rest' : List (String × Nat)}
    (h : toString id ++ followingText rest = toString id' ++ followingText rest') :
    id = id' ∧ followingText rest = followingText rest' := by
  have hhead : ∀ rest : List (String × Nat), (followingText rest).toList.head?.all (· = '_') := by
    intro rest
    cases rest with
    | nil => rfl
    | cons => simp [followingText]
  have hspan : ∀ (n : Nat) (rest : List (String × Nat)),
      ((toString n ++ followingText rest).toList.takeWhile Char.isDigit) = Nat.toDigits 10 n ∧
      ((toString n ++ followingText rest).toList.dropWhile Char.isDigit) = (followingText rest).toList := by
    intro n rest
    have hdigits : ∀ c ∈ Nat.toDigits 10 n, c.isDigit = true := fun c hc =>
      Nat.isDigit_of_mem_toDigits (by decide) (by decide) hc
    have hlist : (toString n ++ followingText rest).toList = Nat.toDigits 10 n ++ (followingText rest).toList := by
      rw [String.toList_append, Nat.toString_eq_repr, Nat.toList_repr]
    rw [hlist, List.takeWhile_append_of_pos hdigits, List.dropWhile_append_of_pos hdigits]
    have hfirst := hhead rest
    cases hrest : (followingText rest).toList with
    | nil => simp
    | cons c cs =>
      rw [hrest] at hfirst
      have hc : c = '_' := by simpa using hfirst
      subst hc
      simp
  have hl := congrArg String.toList h
  have htake := congrArg (List.takeWhile Char.isDigit) hl
  have hdrop := congrArg (List.dropWhile Char.isDigit) hl
  rw [(hspan _ _).1, (hspan _ _).1] at htake
  rw [(hspan _ _).2, (hspan _ _).2] at hdrop
  refine ⟨?_, String.toList_inj.mp hdrop⟩
  have hvalue := congrArg (Nat.ofDigitChars 10 · 0) htake
  simpa using hvalue

theorem followingText_inj {levels : List String} {ids ids' : String → Nat}
    (h : followingText (levels.map fun level => (level, ids level)) =
      followingText (levels.map fun level => (level, ids' level))) : ∀ level ∈ levels, ids level = ids' level := by
  induction levels with
  | nil => simp
  | cons level levels ih =>
    simp only [List.map_cons, followingText, String.append_assoc, String.append_right_inj] at h
    obtain ⟨hid, hrest⟩ := toString_append_inj h
    intro level' hm
    rcases List.mem_cons.mp hm with rfl | hm
    · exact hid
    · exact ih hrest level' hm

theorem levelsText_inj {levels : List String} {ids ids' : String → Nat}
    (h : levelsText (levels.map fun level => (level, ids level)) =
      levelsText (levels.map fun level => (level, ids' level))) : ∀ level ∈ levels, ids level = ids' level := by
  cases levels with
  | nil => simp
  | cons level levels =>
    simp only [List.map_cons, levelsText, String.append_assoc, String.append_right_inj] at h
    obtain ⟨hid, hrest⟩ := toString_append_inj h
    intro level' hm
    rcases List.mem_cons.mp hm with rfl | hm
    · exact hid
    · exact followingText_inj hrest level' hm

end Text

/-- The key of a session below the levels of a pipeline. -/
theorem createSessionKey_levels {levels : List (String × Nat)} {index : List Nat} (h : Fresh {} levels)
    (hlength : index.length = levels.length) :
    (below {} levels index).createSessionKey ∅ = .ok (levelsText ((levels.map Prod.fst).reverse.map fun level =>
      (level, (below {} levels index).subsessionId level))) := by
  have hlevels : (below {} levels index).sessionsLevels = levels.map Prod.fst := List.nil_append _
  have hids : ∀ level ∈ (below {} levels index).sessionsLevels,
      ∃ size, (below {} levels index).detailsAt level = .ok ((below {} levels index).subsessionId level, size) := by
    intro level hm
    rw [hlevels] at hm
    have hlookup := lookup_below h hlength hm
    rw [detailsAt, subsessionId, hlookup]
    exact ⟨_, rfl⟩
  have hempty : (below {} levels index).details = [] → (below {} levels index).sessionsLevels = [] := by
    intro hnil
    have hfst := entries_fst hlength
    have hentries : entries levels index = [] := by simpa [below, entries] using hnil
    rw [hlevels, ← hfst, hentries]
    rfl
  rw [createSessionKey_eq hids hempty, hlevels]

/-- Sessions below the same levels that have the same key are the same. -/
theorem index_eq_of_createSessionKey {levels : List (String × Nat)} {index index' : List Nat} (h : Fresh {} levels)
    (hlength : index.length = levels.length) (hlength' : index'.length = levels.length)
    (hkey : (below {} levels index).createSessionKey ∅ = (below {} levels index').createSessionKey ∅) :
    index = index' := by
  rw [createSessionKey_levels h hlength, createSessionKey_levels h hlength'] at hkey
  have hids := levelsText_inj (Except.ok.inj hkey)
  rw [← subsessionId_below h hlength, ← subsessionId_below h hlength']
  apply List.map_congr_left
  intro level hm
  exact hids level (List.mem_reverse.mpr hm)

end ModelServer.NodeSessionMetadata
