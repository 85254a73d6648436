import ModelServer.Pipeline
import ModelServer.PipelineLevels

namespace ModelServer.NodeSessionMetadata

/-- Levels with their sizes. -/
def sized (size : String → Nat) (names : List String) : List (String × Nat) := names.map fun name => (name, size name)

variable {size : String → Nat} {names : List String}

@[simp] theorem sized_fst (size : String → Nat) (names : List String) : (sized size names).map Prod.fst = names := by
  simp [sized, Function.comp_def]

@[simp] theorem sized_snd (size : String → Nat) (names : List String) :
    (sized size names).map Prod.snd = names.map size := by
  simp [sized, Function.comp_def]

@[simp] theorem length_sized (size : String → Nat) (names : List String) : (sized size names).length = names.length :=
  List.length_map _

theorem sized_append (size : String → Nat) (names names' : List String) :
    sized size (names ++ names') = sized size names ++ sized size names' := List.map_append

theorem fresh_sized (hnamed : ∀ name ∈ names, name ≠ "") (hnodup : names.Nodup) : Fresh {} (sized size names) := by
  refine ⟨?_, by simpa using hnodup, fun _ _ => List.not_mem_nil, fun _ _ => List.not_mem_nil⟩
  intro level hm
  obtain ⟨name, hname, rfl⟩ := List.mem_map.mp hm
  exact hnamed name hname

theorem below_inj {levels : List (String × Nat)} {index index' : List Nat} (h : Fresh {} levels)
    (hlength : index.length = levels.length) (hlength' : index'.length = levels.length)
    (heq : below {} levels index = below {} levels index') : index = index' := by
  rw [← subsessionId_below h hlength, heq, subsessionId_below h hlength']

end ModelServer.NodeSessionMetadata

namespace ModelServer.Pipeline

open NodeSessionMetadata PipelineDefinition

/-- A session below levels of these names, with the ids of the session. -/
structure Below (size : String → Nat) (names : List String) (metadata : NodeSessionMetadata) (index : List Nat) :
    Prop where
  named : ∀ name ∈ names, name ≠ ""
  within : List.Forall₂ (· < ·) index (names.map size)
  eq_below : metadata = below {} (sized size names) index

variable {size : String → Nat} {names : List String} {metadata : NodeSessionMetadata} {index : List Nat}

theorem Below.length (h : Below size names metadata index) : index.length = (sized size names).length := by
  rw [h.within.length_eq, List.length_map, length_sized]

theorem Below.fresh (h : Below size names metadata index) (hnodup : names.Nodup) : Fresh {} (sized size names) :=
  fresh_sized h.named hnodup

theorem Below.unique {index' : List Nat} (h : Below size names metadata index) (hnodup : names.Nodup)
    (h' : Below size names metadata index') : index = index' := by
  apply below_inj (h.fresh hnodup) h.length h'.length
  rw [← h.eq_below, ← h'.eq_below]

/-- A session below some levels and more levels is below a session below the first of them. -/
theorem Below.split {more : List String} (h : Below size (names ++ more) metadata index) :
    ∃ outer inner, index = outer ++ inner ∧ Below size names (below {} (sized size names) outer) outer ∧
      List.Forall₂ (· < ·) inner (more.map size) ∧
      metadata = below (below {} (sized size names) outer) (sized size more) inner := by
  have hindex := h.within
  rw [List.map_append] at hindex
  have houter := List.forall₂_take_append _ _ _ hindex
  have hinner := List.forall₂_drop_append _ _ _ hindex
  have hsplit := (List.take_append_drop (names.map size).length index).symm
  refine ⟨_, _, hsplit, ⟨fun name hm => h.named name (List.mem_append_left _ hm), houter, rfl⟩, hinner, ?_⟩
  rw [h.eq_below, hsplit, sized_append, below_append]
  · rw [← hsplit]
  · rw [houter.length_eq, List.length_map, length_sized]

theorem Below.append {more : List String} {inner : List Nat} (h : Below size names metadata index)
    (hmore : ∀ name ∈ more, name ≠ "") (hinner : List.Forall₂ (· < ·) inner (more.map size)) :
    Below size (names ++ more) (below metadata (sized size more) inner) (index ++ inner) := by
  refine ⟨?_, ?_, ?_⟩
  · intro name hm
    rcases List.mem_append.mp hm with hm | hm
    · exact h.named name hm
    · exact hmore name hm
  · rw [List.map_append]
    exact List.rel_append h.within hinner
  · rw [sized_append, below_append h.length, ← h.eq_below]

/-- Sessions below the same levels with the same key are the same. -/
theorem Below.eq_of_key {metadata' : NodeSessionMetadata} {index' : List Nat} (h : Below size names metadata index)
    (h' : Below size names metadata' index') (hnodup : names.Nodup)
    (hkey : metadata.createSessionKey ∅ = metadata'.createSessionKey ∅) : metadata = metadata' := by
  rw [h.eq_below, h'.eq_below] at hkey ⊢
  rw [index_eq_of_createSessionKey (h.fresh hnodup) h.length h'.length hkey]

/-- Levels that are not there yet may be opened below a session. -/
theorem Below.fresh_more {more : List String} (h : Below size names metadata index) (hnodup : (names ++ more).Nodup)
    (hmore : ∀ name ∈ more, name ≠ "") : Fresh metadata (sized size more) := by
  have hall : Fresh {} (sized size names ++ sized size more) := by
    rw [← sized_append]
    apply fresh_sized _ hnodup
    intro name hm
    rcases List.mem_append.mp hm with hm | hm
    · exact h.named name hm
    · exact hmore name hm
  rw [h.eq_below]
  exact hall.below h.length

theorem Below.exists_key (h : Below size names metadata index) (hnodup : names.Nodup) :
    ∃ key, metadata.createSessionKey ∅ = .ok key := by
  rw [h.eq_below]
  exact ⟨_, createSessionKey_levels (h.fresh hnodup) h.length⟩

/-- A session without details is below no level. -/
theorem Below.levels_nil (h : Below size names metadata index) (hnil : metadata.details = []) :
    metadata.sessionsLevels = [] := by
  rw [h.eq_below] at hnil ⊢
  have hfst := entries_fst h.length
  have hentries : entries (sized size names) index = [] := by simpa [NodeSessionMetadata.below, entries] using hnil
  show [] ++ (sized size names).map Prod.fst = []
  rw [← hfst, hentries]
  rfl

section GetNodeSession

variable {node : NodeInfo} {gathered : List String} {inner : List Nat} {arriving : NodeSessionMetadata}

/-- The session that a session of a dependency belongs to is the one above the levels that are gathered; a new one
waits for every session of every dependency below it. -/
theorem getNodeSession_below (h : Below size names metadata index) (hnodup : (names ++ gathered).Nodup)
    (hnamed : ∀ name ∈ gathered, name ≠ "") (hinner : List.Forall₂ (· < ·) inner (gathered.map size))
    (hgathers : gathered.toFinset = node.gatherFromNode) {previous : Nat}
    (hpos : ∀ name ∈ gathered, 0 < size name) (hword : previous * (gathered.map size).prod < sessionIdWord)
    {key : String} (hkey : metadata.createSessionKey ∅ = .ok key) (sessions : NodeSessions) :
    Node.getNodeSession node previous sessions (below metadata (sized size gathered) inner) =
      .ok ((node.nodeName, key), if (sessions.lookup (node.nodeName, key)).isSome then sessions
        else sessions ++ [((node.nodeName, key),
          { metadata := metadata, remainingDependencies := previous * (gathered.map size).prod })]) := by
  have hfresh := h.fresh_more hnodup hnamed
  have hlength : inner.length = (sized size gathered).length := by
    rw [hinner.length_eq, List.length_map, length_sized]
  have hsession := createSessionKey_below hfresh hlength h.levels_nil
  rw [sized_fst, hgathers, hkey] at hsession
  have hcount : (gathered.map size).foldl (fun count size => count * size % sessionIdWord) previous =
      previous * (gathered.map size).prod := by
    apply GatherNodeInputHandler.create_remaining _ hword
    intro size' hm
    obtain ⟨name, hname, rfl⟩ := List.mem_map.mp hm
    exact hpos name hname
  unfold Node.getNodeSession
  rw [hsession]
  simp only
  split
  next => rfl
  next =>
    split
    next hnone =>
      have hnil : gathered = [] := List.toFinset_eq_empty_iff _ |>.mp (hgathers.trans hnone)
      subst hnil
      have hinnerNil : inner = [] := List.length_eq_zero_iff.mp (by simpa using hlength)
      subst hinnerNil
      have hself : below metadata (sized size []) [] = metadata := by simp [below, sized]
      rw [hself]
      simp [NodeSession.create]
    next hsome =>
      have hne : sized size gathered ≠ [] := by
        intro hnil
        have hgathered : gathered = [] := by simpa [sized] using hnil
        rw [← hgathers, hgathered] at hsome
        exact hsome rfl
      have hcollapsed := getCollapsedSessionMetadata_below hfresh hne hlength
      rw [sized_fst, hgathers, sized_snd] at hcollapsed
      rw [hcollapsed]
      simp only [NodeSession.create, hcount]

end GetNodeSession

section Results

/-- The level that a node opens. -/
def opened (node : NodeInfo) : List String := if node.demultiplyCount.isSome then [node.nodeName] else []

theorem resultSessions_shards {node : NodeInfo} {metadata : NodeSessionMetadata} {shards : Nat}
    {sessions : List NodeSessionMetadata} (hkind : node.kind ≠ .EXIT) {count : Int}
    (hcount : node.demultiplyCount = some count) (h : Node.resultSessions node metadata shards = .ok sessions) :
    0 < shards ∧ (count = -1 ∨ (shards : Int) = count % 2 ^ 64) := by
  unfold Node.resultSessions at h
  rw [if_neg hkind, hcount] at h
  simp only at h
  split at h
  next hguard => exact ⟨hguard.1, hguard.2.2⟩
  next => cases h

theorem resultSessions_ok {node : NodeInfo} {shards : Nat} {sessions : List NodeSessionMetadata}
    (h : Below size names metadata index) (hnodup : (names ++ [node.nodeName]).Nodup) (hkind : node.kind ≠ .EXIT)
    (hshards : node.demultiplyCount.isSome → shards = size node.nodeName)
    (hsessions : Node.resultSessions node metadata shards = .ok sessions) :
    (∀ name ∈ opened node, name ≠ "") ∧
      sessions = (RowMajor.indexes ((opened node).map size)).map (below metadata (sized size (opened node))) := by
  unfold Node.resultSessions at hsessions
  rw [if_neg hkind] at hsessions
  unfold opened
  split at hsessions
  next hnone =>
    cases hsessions
    simp [hnone, RowMajor.indexes, below, sized]
  next count hsome =>
    split at hsessions
    next =>
      have hname : node.nodeName ≠ "" := by
        intro hempty
        rw [hempty] at hsessions
        cases hsessions
      have hsize := hshards (by rw [hsome]; rfl)
      have hfresh : Fresh metadata [(node.nodeName, shards)] := by
        have hmore := h.fresh_more hnodup fun name hm => by
          rw [List.mem_singleton.mp hm]
          exact hname
        rw [hsize]
        exact hmore
      rw [generateSubsessions_eq hfresh] at hsessions
      cases hsessions
      refine ⟨by simp [hsome, hname], ?_⟩
      simp [hsome, RowMajor.indexes, below, sized, ← hsize, ← List.map_eq_flatMap]
    next => cases hsessions

end Results

end ModelServer.Pipeline
