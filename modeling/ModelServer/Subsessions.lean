import Mathlib.Data.List.Nodup
import Mathlib.Algebra.Order.BigOperators.GroupWithZero.List
import ModelServer.NodeSessionMetadata

namespace ModelServer.NodeSessionMetadata

/-- The sessions below a session after demultiplexers with these names and sizes, outermost first. -/
def subsessions (metadata : NodeSessionMetadata) : List (String × Nat) → Except String (List NodeSessionMetadata)
  | [] => .ok [metadata]
  | (nodeName, size) :: levels => do
    let metas ← metadata.generateSubsessions nodeName size
    let nested ← metas.mapM (subsessions · levels)
    return nested.flatten

/-- The session below a session with these ids at the levels. -/
def below (metadata : NodeSessionMetadata) (levels : List (String × Nat)) (index : List Nat) : NodeSessionMetadata where
  details := metadata.details ++ List.zipWith (fun level i => (level.1, i, level.2)) levels index
  sessionsLevels := metadata.sessionsLevels ++ levels.map Prod.fst

theorem below_append {metadata : NodeSessionMetadata} {levels more : List (String × Nat)} {index inner : List Nat}
    (hlength : index.length = levels.length) :
    below metadata (levels ++ more) (index ++ inner) = below (below metadata levels index) more inner := by
  unfold below
  rw [List.zipWith_append hlength.symm, List.map_append, List.append_assoc, List.append_assoc]

/-- The id of a session at a level. -/
def subsessionId (metadata : NodeSessionMetadata) (name : String) : Nat :=
  ((metadata.details.lookup name).map Prod.fst).getD 0

/-- Levels that can be opened below a session. -/
structure Fresh (metadata : NodeSessionMetadata) (levels : List (String × Nat)) : Prop where
  nonempty : ∀ level ∈ levels, level.1 ≠ ""
  nodup : (levels.map Prod.fst).Nodup
  unused : ∀ level ∈ levels, level.1 ∉ metadata.details.map Prod.fst
  unlisted : ∀ level ∈ levels, level.1 ∉ metadata.sessionsLevels

theorem Fresh.mono {metadata : NodeSessionMetadata} {levels fewer : List (String × Nat)} (h : Fresh metadata levels)
    (hfewer : fewer <+: levels) : Fresh metadata fewer :=
  ⟨fun level hm => h.nonempty level (hfewer.subset hm), h.nodup.sublist (hfewer.sublist.map Prod.fst),
    fun level hm => h.unused level (hfewer.subset hm), fun level hm => h.unlisted level (hfewer.subset hm)⟩

theorem generateSubsessions_eq {metadata : NodeSessionMetadata} {name : String} {size : Nat}
    (h : Fresh metadata [(name, size)]) :
    metadata.generateSubsessions name size = .ok ((List.range size).map fun counter =>
      ⟨metadata.details ++ [(name, counter, size)], metadata.sessionsLevels ++ [name]⟩) := by
  have hnonempty : name.isEmpty = false := by
    have hne := h.nonempty (name, size) List.mem_cons_self
    simpa using hne
  have hlookup := lookup_eq_none.mpr (h.unused (name, size) List.mem_cons_self)
  simp [generateSubsessions, hnonempty, hlookup]

theorem generateSubsessions_refused {metadata : NodeSessionMetadata} {name : String}
    (h : ¬ (name ≠ "" ∧ name ∉ metadata.details.map Prod.fst)) (size : Nat) :
    ∃ message, metadata.generateSubsessions name size = .error message := by
  unfold generateSubsessions
  split
  next => exact ⟨_, rfl⟩
  next hname =>
    split
    next => exact ⟨_, rfl⟩
    next hlookup =>
      exfalso
      apply h
      exact ⟨by simpa using hname, lookup_eq_none.mp (Option.not_isSome_iff_eq_none.mp hlookup)⟩

/-- A level more. -/
theorem Fresh.snoc {metadata : NodeSessionMetadata} {name : String} {levels : List (String × Nat)}
    (h : Fresh metadata levels) (hname : name ≠ "") (hnew : name ∉ levels.map Prod.fst)
    (hunused : name ∉ metadata.details.map Prod.fst) (hunlisted : name ∉ metadata.sessionsLevels) (size : Nat) :
    Fresh metadata (levels ++ [(name, size)]) := by
  have hsplit : ∀ P : String → Prop, (∀ level ∈ levels, P level.1) → P name →
      ∀ level ∈ levels ++ [(name, size)], P level.1 := by
    intro P hlevels hlast level hm
    rcases List.mem_append.mp hm with hm | hm
    · exact hlevels level hm
    · rw [List.mem_singleton.mp hm]
      exact hlast
  refine ⟨hsplit (· ≠ "") h.nonempty hname, ?_, hsplit (· ∉ metadata.details.map Prod.fst) h.unused hunused,
    hsplit (· ∉ metadata.sessionsLevels) h.unlisted hunlisted⟩
  rw [List.map_append, List.nodup_append]
  refine ⟨h.nodup, by simp, ?_⟩
  intro level hlevel last hlast heq
  rw [List.map_singleton, List.mem_singleton] at hlast
  rw [heq, hlast] at hlevel
  exact hnew hlevel

/-- The levels that are left below the first of them. -/
theorem Fresh.rest {metadata : NodeSessionMetadata} {name : String} {size : Nat} {levels : List (String × Nat)}
    (h : Fresh metadata ((name, size) :: levels)) (i : Nat) :
    Fresh ⟨metadata.details ++ [(name, i, size)], metadata.sessionsLevels ++ [name]⟩ levels := by
  obtain ⟨hname, hnames⟩ := List.nodup_cons.mp h.nodup
  have hne : ∀ level ∈ levels, level.1 ≠ name := by
    intro level hm heq
    exact hname (List.mem_map.mpr ⟨level, hm, heq⟩)
  refine ⟨fun level hm => h.nonempty level (List.mem_cons_of_mem _ hm), hnames, ?_, ?_⟩
  · intro level hm
    have hunused := h.unused level (List.mem_cons_of_mem _ hm)
    rw [List.map_append, List.mem_append]
    rintro (hin | hin)
    · exact hunused hin
    · exact hne level hm (List.mem_singleton.mp hin)
  · intro level hm
    have hunlisted := h.unlisted level (List.mem_cons_of_mem _ hm)
    rw [List.mem_append]
    rintro (hin | hin)
    · exact hunlisted hin
    · exact hne level hm (List.mem_singleton.mp hin)

theorem mapM_ok {ε α β : Type} {f : α → Except ε β} {g : α → β} {xs : List α} (h : ∀ x ∈ xs, f x = .ok (g x)) :
    xs.mapM f = .ok (xs.map g) := by
  induction xs with
  | nil => rfl
  | cons x xs ih =>
    rw [List.mapM_cons, h x List.mem_cons_self, ih fun y hy => h y (List.mem_cons_of_mem _ hy)]
    rfl

theorem subsessions_eq {metadata : NodeSessionMetadata} {levels : List (String × Nat)}
    (h : Fresh metadata levels) :
    metadata.subsessions levels = .ok ((RowMajor.indexes (levels.map Prod.snd)).map (below metadata levels)) := by
  induction levels generalizing metadata with
  | nil => simp [subsessions, below, RowMajor.indexes]
  | cons level levels ih =>
    obtain ⟨name, size⟩ := level
    have hgenerate := generateSubsessions_eq (h.mono (List.prefix_append [(name, size)] levels))
    have hnested : ∀ next ∈ (List.range size).map (fun counter => (⟨metadata.details ++ [(name, counter, size)],
        metadata.sessionsLevels ++ [name]⟩ : NodeSessionMetadata)),
        next.subsessions levels = .ok ((RowMajor.indexes (levels.map Prod.snd)).map (below next levels)) := by
      intro next hm
      obtain ⟨counter, _, rfl⟩ := List.mem_map.mp hm
      exact ih (h.rest counter)
    rw [subsessions, hgenerate, ok_bind, mapM_ok hnested, ok_bind]
    show Except.ok _ = _
    rw [List.map_map, ← List.flatMap_def, List.map_cons, RowMajor.indexes, List.map_flatMap]
    congr 2
    funext counter
    rw [List.map_map]
    apply List.map_congr_left
    intro index _
    simp [below]

/-- What a session below adds to the details. -/
def entries (levels : List (String × Nat)) (index : List Nat) : List (String × Nat × Nat) :=
  List.zipWith (fun level i => (level.1, i, level.2)) levels index

theorem entries_fst {levels : List (String × Nat)} {index : List Nat} (h : index.length = levels.length) :
    (entries levels index).map Prod.fst = levels.map Prod.fst := by
  induction levels generalizing index with
  | nil => rfl
  | cons level levels ih =>
    cases index with
    | nil => cases h
    | cons i index =>
      have hrest := ih (Nat.succ.inj h)
      simpa [entries] using hrest

theorem entries_snd {levels : List (String × Nat)} {index : List Nat} (h : index.length = levels.length) :
    (entries levels index).map Prod.snd = index.zip (levels.map Prod.snd) := by
  induction levels generalizing index with
  | nil => simp [entries]
  | cons level levels ih =>
    cases index with
    | nil => cases h
    | cons i index =>
      have hrest := ih (Nat.succ.inj h)
      simpa [entries] using hrest

section Below

variable {metadata : NodeSessionMetadata} {levels : List (String × Nat)} {index : List Nat}

/-- What the details of a session below say about the new levels. -/
theorem lookup_below (h : Fresh metadata levels) (hlength : index.length = levels.length) {name : String}
    (hm : name ∈ levels.map Prod.fst) :
    (below metadata levels index).details.lookup name = some (((entries levels index).lookup name).getD (0, 0)) := by
  obtain ⟨level, hlevel, rfl⟩ := List.mem_map.mp hm
  show (metadata.details ++ entries levels index).lookup level.1 = _
  rw [List.lookup_append, lookup_eq_none.mpr (h.unused level hlevel)]
  cases hfound : (entries levels index).lookup level.1 with
  | some entry => rfl
  | none =>
    have hnone := lookup_eq_none.mp hfound
    rw [entries_fst hlength] at hnone
    exact absurd hm hnone

/-- What the details of a session below say about the other levels. -/
theorem lookup_above (hlength : index.length = levels.length) {name : String}
    (hnew : name ∉ levels.map Prod.fst) :
    (below metadata levels index).details.lookup name = metadata.details.lookup name := by
  have hnone : (entries levels index).lookup name = none := by
    rw [lookup_eq_none, entries_fst hlength]
    exact hnew
  show (metadata.details ++ entries levels index).lookup name = _
  rw [List.lookup_append, hnone, Option.or_none]

theorem lookup_entries (h : Fresh metadata levels) (hlength : index.length = levels.length) :
    (levels.map Prod.fst).map (fun name => ((entries levels index).lookup name).getD (0, 0)) =
      index.zip (levels.map Prod.snd) := by
  have hnodup : ((entries levels index).map Prod.fst).Nodup := by
    rw [entries_fst hlength]
    exact h.nodup
  rw [← entries_fst hlength, ← entries_snd hlength, List.map_map]
  apply List.map_congr_left
  intro entry hm
  show ((entries levels index).lookup entry.1).getD (0, 0) = entry.2
  rw [lookup_of_mem hnodup hm]
  rfl

theorem card_names (h : Fresh metadata levels) : (levels.map Prod.fst).toFinset.card = levels.length := by
  rw [List.toFinset_card_of_nodup h.nodup, List.length_map]

theorem reverse_take_below (metadata : NodeSessionMetadata) (levels : List (String × Nat)) (index : List Nat) :
    (below metadata levels index).sessionsLevels.reverse.take levels.length = (levels.map Prod.fst).reverse := by
  show (metadata.sessionsLevels ++ levels.map Prod.fst).reverse.take levels.length = _
  rw [List.reverse_append, List.take_append_of_le_length (by simp), List.take_of_length_le (by simp)]

theorem inLifoOrder_below (h : Fresh metadata levels) :
    (below metadata levels index).inLifoOrder (levels.map Prod.fst).toFinset = true := by
  unfold inLifoOrder
  rw [card_names h, reverse_take_below, Bool.or_eq_true, List.all_eq_true]
  right
  intro name hm
  simpa using hm

/-- The number of a shard, of which 32 bits are kept. -/
theorem getShardId_below_mod (h : Fresh metadata levels) (hne : levels ≠ [])
    (hindex : List.Forall₂ (· < ·) index (levels.map Prod.snd)) :
    (below metadata levels index).getShardId (levels.map Prod.fst).toFinset =
      .ok (RowMajor.offset (levels.map Prod.snd) index % sessionIdWord) := by
  have hlength : index.length = levels.length := by
    rw [hindex.length_eq, List.length_map]
  have hpos := List.length_pos_iff.mpr hne
  have hlong : ¬ (below metadata levels index).sessionsLevels.length < levels.length := by
    simp [below]
  have hlevels : ∀ name ∈ (levels.map Prod.fst).reverse, (below metadata levels index).detailsAt name =
      .ok (((entries levels index).lookup name).getD (0, 0)) := by
    intro name hm
    rw [detailsAt, lookup_below h hlength (List.mem_reverse.mp hm)]
  unfold getShardId
  rw [card_names h, if_neg (by omega), if_neg hlong, inLifoOrder_below h, reverse_take_below]
  simp only [mapM_ok hlevels, ok_bind, List.map_reverse, lookup_entries h hlength]
  rw [RowMajor.accumulate_reverse _ (by decide) (hindex.length_eq)]
  rfl

theorem getShardId_below (h : Fresh metadata levels) (hne : levels ≠ [])
    (hindex : List.Forall₂ (· < ·) index (levels.map Prod.snd))
    (hword : (levels.map Prod.snd).prod < sessionIdWord) :
    (below metadata levels index).getShardId (levels.map Prod.fst).toFinset =
      .ok (RowMajor.offset (levels.map Prod.snd) index) := by
  rw [getShardId_below_mod h hne hindex, Nat.mod_eq_of_lt ((RowMajor.offset_lt hindex).trans hword)]

theorem getCollapsedSessionMetadata_below (h : Fresh metadata levels) (hne : levels ≠ [])
    (hlength : index.length = levels.length) :
    (below metadata levels index).getCollapsedSessionMetadata (levels.map Prod.fst).toFinset =
      .ok (metadata, ⟨levels.map Prod.fst, levels.map Prod.snd⟩) := by
  have hpos := List.length_pos_iff.mpr hne
  have hexists : ¬ ∃ name ∈ (levels.map Prod.fst).toFinset,
      (below metadata levels index).details.lookup name = none := by
    rintro ⟨name, hm, hnone⟩
    rw [lookup_below h hlength (List.mem_toFinset.mp hm)] at hnone
    cases hnone
  have hnames : (below metadata levels index).sessionsLevels.filter
      (decide <| · ∈ (levels.map Prod.fst).toFinset) = levels.map Prod.fst := by
    show (metadata.sessionsLevels ++ levels.map Prod.fst).filter _ = _
    rw [List.filter_append, List.filter_eq_nil_iff.mpr, List.filter_eq_self.mpr, List.nil_append]
    · intro name hm
      simpa using hm
    · intro name hm hin
      obtain ⟨level, hlevel, rfl⟩ : ∃ level ∈ levels, level.1 = name := by simpa using hin
      exact h.unlisted level hlevel hm
  have hrest : (below metadata levels index).sessionsLevels.filter
      (decide <| · ∉ (levels.map Prod.fst).toFinset) = metadata.sessionsLevels := by
    show (metadata.sessionsLevels ++ levels.map Prod.fst).filter _ = _
    rw [List.filter_append, List.filter_eq_self.mpr, List.filter_eq_nil_iff.mpr, List.append_nil]
    · intro name hm
      simpa using hm
    · intro name hm
      have hnot : name ∉ levels.map Prod.fst := by
        intro hin
        obtain ⟨level, hlevel, rfl⟩ := List.mem_map.mp hin
        exact h.unlisted level hlevel hm
      simpa using hnot
  have hdetails : (below metadata levels index).details.filter
      (fun pair => decide (pair.1 ∉ (levels.map Prod.fst).toFinset)) = metadata.details := by
    show (metadata.details ++ entries levels index).filter _ = _
    rw [List.filter_append, List.filter_eq_self.mpr, List.filter_eq_nil_iff.mpr, List.append_nil]
    · intro entry hm
      have hin : entry.1 ∈ levels.map Prod.fst := by
        rw [← entries_fst hlength]
        exact List.mem_map.mpr ⟨entry, hm, rfl⟩
      simpa using hin
    · intro entry hm
      have hnot : entry.1 ∉ levels.map Prod.fst := by
        intro hin
        obtain ⟨level, hlevel, heq⟩ := List.mem_map.mp hin
        apply h.unused level hlevel
        rw [heq]
        exact List.mem_map.mpr ⟨entry, hm, rfl⟩
      simpa using hnot
  have hsizes : ∀ name ∈ levels.map Prod.fst, (below metadata levels index).getSubsessionSize name =
      .ok (((entries levels index).lookup name).getD (0, 0)).2 := by
    intro name hm
    rw [getSubsessionSize, lookup_below h hlength hm]
  have hvalues : (levels.map Prod.fst).map (fun name => (((entries levels index).lookup name).getD (0, 0)).2) =
      levels.map Prod.snd := by
    have hzip := congrArg (List.map Prod.snd) (lookup_entries h hlength)
    rw [List.map_map, List.map_snd_zip (by simp [hlength])] at hzip
    exact hzip
  unfold getCollapsedSessionMetadata
  rw [card_names h, if_neg (by omega), if_neg hexists, inLifoOrder_below h]
  simp only [hnames, hrest, hdetails, mapM_ok hsizes, hvalues, ok_bind]
  rfl

theorem subsessionId_below (h : Fresh metadata levels) (hlength : index.length = levels.length) :
    (levels.map Prod.fst).map (below metadata levels index).subsessionId = index := by
  have hids : ∀ name ∈ levels.map Prod.fst, (below metadata levels index).subsessionId name =
      (((entries levels index).lookup name).getD (0, 0)).1 := by
    intro name hm
    rw [subsessionId, lookup_below h hlength hm]
    rfl
  rw [List.map_congr_left hids]
  have hzip := congrArg (List.map Prod.fst) (lookup_entries h hlength)
  rw [List.map_map, List.map_fst_zip (by simp [hlength])] at hzip
  exact hzip

/-- Levels below a session that is itself below some levels. -/
theorem Fresh.below {more : List (String × Nat)} (h : Fresh metadata (levels ++ more))
    (hlength : index.length = levels.length) : Fresh (below metadata levels index) more := by
  have hne : ∀ level ∈ more, level.1 ∉ levels.map Prod.fst := by
    intro level hm hin
    have hnodup := h.nodup
    rw [List.map_append, List.nodup_append] at hnodup
    exact hnodup.2.2 _ hin _ (List.mem_map.mpr ⟨level, hm, rfl⟩) rfl
  refine ⟨fun level hm => h.nonempty level (List.mem_append_right _ hm), ?_, ?_, ?_⟩
  · have hnodup := h.nodup
    rw [List.map_append, List.nodup_append] at hnodup
    exact hnodup.2.1
  · intro level hm hin
    have hin : level.1 ∈ (metadata.details ++ entries levels index).map Prod.fst := hin
    rw [List.map_append, entries_fst hlength, List.mem_append] at hin
    rcases hin with hin | hin
    · exact h.unused level (List.mem_append_right _ hm) hin
    · exact hne level hm hin
  · intro level hm hin
    have hin : level.1 ∈ metadata.sessionsLevels ++ levels.map Prod.fst := hin
    rcases List.mem_append.mp hin with hin | hin
    · exact h.unlisted level (List.mem_append_right _ hm) hin
    · exact hne level hm hin

end Below

/-- Sessions that share a session above some levels, numbered row by row. -/
structure Numbers (metadata : NodeSessionMetadata) (levels : List (String × Nat)) (metas : List NodeSessionMetadata) :
    Prop where
  ids : metas.map (·.getShardId (levels.map Prod.fst).toFinset) = (List.range (levels.map Prod.snd).prod).map .ok
  collapsed : ∀ session ∈ metas, session.getCollapsedSessionMetadata (levels.map Prod.fst).toFinset =
    .ok (metadata, ⟨levels.map Prod.fst, levels.map Prod.snd⟩)
  offsets : ∀ session ∈ metas, session.getShardId (levels.map Prod.fst).toFinset =
    .ok (RowMajor.offset (levels.map Prod.snd) ((levels.map Prod.fst).map session.subsessionId))

theorem numbers_below {metadata : NodeSessionMetadata} {levels : List (String × Nat)} (h : Fresh metadata levels)
    (hne : levels ≠ []) (hword : (levels.map Prod.snd).prod < sessionIdWord) :
    Numbers metadata levels ((RowMajor.indexes (levels.map Prod.snd)).map (below metadata levels)) := by
  have hwithin : ∀ index ∈ RowMajor.indexes (levels.map Prod.snd),
      List.Forall₂ (· < ·) index (levels.map Prod.snd) ∧ index.length = levels.length := by
    intro index hm
    have hindex := RowMajor.mem_indexes hm
    exact ⟨hindex, by rw [hindex.length_eq, List.length_map]⟩
  refine ⟨?_, ?_, ?_⟩
  · rw [← RowMajor.indexes_offset, List.map_map, List.map_map]
    apply List.map_congr_left
    intro index hm
    exact getShardId_below h hne (hwithin index hm).1 hword
  · intro session hm
    obtain ⟨index, hin, rfl⟩ := List.mem_map.mp hm
    exact getCollapsedSessionMetadata_below h hne (hwithin index hin).2
  · intro session hm
    obtain ⟨index, hin, rfl⟩ := List.mem_map.mp hm
    rw [subsessionId_below h (hwithin index hin).2]
    exact getShardId_below h hne (hwithin index hin).1 hword

end ModelServer.NodeSessionMetadata
