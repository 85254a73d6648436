import ModelServer.PipelineValidation

namespace ModelServer.PipelineDefinition

variable {definition : PipelineDefinition}

/-- Every node but the entry has a dependency. -/
def Fed (definition : PipelineDefinition) : Prop :=
  ∀ node ∈ definition.nodeInfos, node.kind ≠ .ENTRY → definition.connectedTo node.nodeName ≠ []

/-- The levels of the sessions of a node, where these are the levels of its inputs. -/
def sessionLevels (node : NodeInfo) (arriving : List String) : List String :=
  arriving.take (arriving.length - node.gatherFromNode.card)

/-- The levels that a node gathers. -/
def gatheredLevels (node : NodeInfo) (arriving : List String) : List String :=
  arriving.drop (arriving.length - node.gatherFromNode.card)

/-- The levels of the outputs of a node. -/
def outputLevels (node : NodeInfo) (arriving : List String) : List String :=
  sessionLevels node arriving ++ if node.demultiplyCount.isSome then [node.nodeName] else []

/-- The levels with which inputs arrive at a node. -/
inductive Arrives (definition : PipelineDefinition) : NodeInfo → List String → Prop
  | entry {entry : NodeInfo} : entry ∈ definition.nodeInfos → entry.kind = .ENTRY → Arrives definition entry []
  | next {dependency node : NodeInfo} {arriving : List String} : Arrives definition dependency arriving →
      node ∈ definition.nodeInfos → definition.findNodeByName dependency.nodeName = some dependency →
      dependency.nodeName ∈ definition.connectedTo node.nodeName →
      Arrives definition node (outputLevels dependency arriving)

/-- Levels that are gathered set by set, the first set from the end. -/
inductive Matches : DemultiplyStack → List String → Prop
  | nil : Matches [] []
  | push {gathers : Finset String} {stack : DemultiplyStack} {levels inner : List String} : Matches stack levels →
      inner.Nodup → inner.toFinset = gathers → Matches (gathers :: stack) (levels ++ inner)

theorem Matches.perm {stack : DemultiplyStack} {levels levels' : List String} (h : Matches stack levels)
    (h' : Matches stack levels') : levels.Perm levels' := by
  induction h generalizing levels' with
  | nil =>
    cases h'
    exact .nil
  | push _ hnodup hset ih =>
    cases h' with
    | push hrest hnodup' hset' =>
      apply (ih hrest).append
      exact List.perm_of_nodup_nodup_toFinset_eq hnodup hnodup' (hset.trans hset'.symm)

/-- What is left of the levels when the first set has been gathered. -/
theorem Matches.pop {gathers : Finset String} {stack : DemultiplyStack} {levels : List String}
    (h : Matches (gathers :: stack) levels) :
    Matches stack (levels.take (levels.length - gathers.card)) ∧
      (levels.drop (levels.length - gathers.card)).Nodup ∧
      (levels.drop (levels.length - gathers.card)).toFinset = gathers := by
  cases h with
  | @push _ _ outer inner hrest hnodup hset =>
    have hcard : gathers.card = inner.length := by
      rw [← hset, List.toFinset_card_of_nodup hnodup]
    have hlength : (outer ++ inner).length - gathers.card = outer.length := by
      rw [List.length_append, hcard]
      omega
    rw [hlength, List.take_left, List.drop_left]
    exact ⟨hrest, hnodup, hset⟩

/-- A demultiplexer opens the level that is gathered next. -/
theorem Matches.open {gathers : Finset String} {stack : DemultiplyStack} {levels : List String} {name : String}
    (hname : name ∈ gathers)
    (h : Matches (if gathers.erase name = ∅ then stack else gathers.erase name :: stack) levels) :
    Matches (gathers :: stack) (levels ++ [name]) := by
  split at h
  next hempty =>
    apply h.push (List.nodup_singleton name)
    have hinsert := Finset.insert_erase hname
    rw [hempty] at hinsert
    simpa using hinsert
  next =>
    cases h with
    | @push _ _ outer inner hrest hnodup hset =>
      rw [List.append_assoc]
      apply hrest.push
      · rw [List.nodup_append]
        refine ⟨hnodup, List.nodup_singleton name, ?_⟩
        rintro level hlevel other hother rfl
        have hin : level ∈ gathers.erase name := by
          rw [← hset]
          exact List.mem_toFinset.mpr hlevel
        exact Finset.ne_of_mem_erase hin (List.mem_singleton.mp hother)
      · rw [List.toFinset_append, hset]
        ext level
        simp only [List.toFinset_cons, List.toFinset_nil, Finset.mem_union, Finset.mem_erase, Finset.mem_insert,
          Finset.notMem_empty, or_false]
        constructor
        · rintro (⟨_, hm⟩ | rfl)
          · exact hm
          · exact hname
        · intro hm
          by_cases heq : level = name
          · exact .inr heq
          · exact .inl ⟨heq, hm⟩

theorem newDemultiplyStack_ok {node : NodeInfo} {stack behind : DemultiplyStack}
    (h : newDemultiplyStack node stack = .ok behind) :
    ∃ rest, meetDemultiplexer node stack = .ok rest ∧
      behind = (if node.gatherFromNode = ∅ then rest else node.gatherFromNode :: rest) ∧
      (node.kind = .ENTRY → behind = []) := by
  unfold newDemultiplyStack at h
  split at h
  next => cases h
  next rest hrest =>
    simp only at h
    generalize hnew : (if node.gatherFromNode = ∅ then rest else node.gatherFromNode :: rest) = newStack at h
    split at h
    next => cases h
    next hentry =>
      cases h
      exact ⟨rest, hrest, hnew.symm, fun hkind => not_not.mp fun hne => hentry ⟨hkind, hne⟩⟩

theorem matches_sessionLevels {node : NodeInfo} {stack : DemultiplyStack} {arriving : List String}
    (h : Matches (if node.gatherFromNode = ∅ then stack else node.gatherFromNode :: stack) arriving) :
    Matches stack (sessionLevels node arriving) := by
  unfold sessionLevels
  split at h
  next hempty =>
    rw [hempty, Finset.card_empty, Nat.sub_zero, List.take_length]
    exact h
  next => exact h.pop.1

theorem toFinset_gatheredLevels {node : NodeInfo} {stack : DemultiplyStack} {arriving : List String}
    (h : Matches (if node.gatherFromNode = ∅ then stack else node.gatherFromNode :: stack) arriving) :
    (gatheredLevels node arriving).toFinset = node.gatherFromNode := by
  unfold gatheredLevels
  split at h
  next hempty =>
    rw [hempty, Finset.card_empty, Nat.sub_zero, List.drop_length]
    rfl
  next => exact h.pop.2.2

/-- The stack behind a node matches the levels of its inputs only when the stack before it matches those of its
outputs. -/
theorem matches_outputLevels {node : NodeInfo} {stack behind : DemultiplyStack} {arriving : List String}
    (hstack : newDemultiplyStack node stack = .ok behind) (h : Matches behind arriving) :
    Matches stack (outputLevels node arriving) := by
  obtain ⟨rest, hrest, rfl, _⟩ := newDemultiplyStack_ok hstack
  have hsession := matches_sessionLevels h
  unfold outputLevels
  unfold meetDemultiplexer at hrest
  split at hrest
  next hdemultiplexer =>
    rw [if_pos hdemultiplexer]
    split at hrest
    next => cases hrest
    next lastGatherSet rest' =>
      split at hrest
      next => cases hrest
      next hm =>
        cases hrest
        exact Matches.open (not_not.mp hm) hsession
  next hdemultiplexer =>
    cases hrest
    rw [if_neg hdemultiplexer, List.append_nil]
    exact hsession

section Sorted

variable {exit : NodeInfo} {order : List String} {stack : String → DemultiplyStack}

/-- The levels that arrive at a node match its stack; they are demultiplexers before it, each before the next. -/
structure Arrived (definition : PipelineDefinition) (stack : DemultiplyStack) (order : List String) (node : NodeInfo)
    (arriving : List String) : Prop where
  levels : Matches stack arriving
  demultiplexers : ∀ level ∈ arriving, ∃ info, definition.findNodeByName level = some info ∧ info.demultiplyCount.isSome
  sorted : arriving.Pairwise (DependencyOrder.rank order · < DependencyOrder.rank order ·)
  before : ∀ level ∈ arriving, DependencyOrder.rank order level < DependencyOrder.rank order node.nodeName

theorem Arrived.output {dependency node : NodeInfo} {arriving : List String} {next : DemultiplyStack}
    (h : Arrived definition (stack dependency.nodeName) order dependency arriving)
    (hfound : definition.findNodeByName dependency.nodeName = some dependency)
    (hlt : DependencyOrder.rank order dependency.nodeName < DependencyOrder.rank order node.nodeName)
    (hstack : newDemultiplyStack dependency next = .ok (stack dependency.nodeName)) :
    Arrived definition next order node (outputLevels dependency arriving) := by
  have hsublist : (sessionLevels dependency arriving).Sublist arriving := List.take_sublist _ _
  refine ⟨matches_outputLevels hstack h.levels, ?_, ?_, ?_⟩
  · intro level hlevel
    rcases List.mem_append.mp hlevel with hm | hm
    · exact h.demultiplexers level (hsublist.subset hm)
    · split at hm
      next hdemultiplexer =>
        rw [List.mem_singleton.mp hm]
        exact ⟨dependency, hfound, hdemultiplexer⟩
      next => cases hm
  · unfold outputLevels
    rw [List.pairwise_append]
    refine ⟨h.sorted.sublist hsublist, by split <;> simp, ?_⟩
    intro level hlevel opened hopened
    split at hopened
    next =>
      rw [List.mem_singleton.mp hopened]
      exact h.before level (hsublist.subset hlevel)
    next => cases hopened
  · intro level hlevel
    rcases List.mem_append.mp hlevel with hm | hm
    · exact (h.before level (hsublist.subset hm)).trans hlt
    · split at hm
      next =>
        rw [List.mem_singleton.mp hm]
        exact hlt
      next => cases hm

/-- The stack at a node is that of its gathering and what is left behind it. -/
theorem Stacks.behind (hstacks : Stacks definition exit stack) (hchecked : Checked definition)
    (hexit : exit ∈ definition.nodeInfos) (hkind : exit.kind = .EXIT)
    (hacyclic : Acyclic definition exit.nodeName order) {node : NodeInfo} (hm : node ∈ definition.nodeInfos) :
    ∃ rest, stack node.nodeName = (if node.gatherFromNode = ∅ then rest else node.gatherFromNode :: rest) ∧
      (node.kind = .ENTRY → stack node.nodeName = []) := by
  have hleads := (hacyclic.names node hm).2
  generalize hname : node.nodeName = name at hleads
  cases hleads with
  | exit =>
    have heq := List.inj_on_of_nodup_map hchecked.names hm hexit hname
    subst heq
    refine ⟨[], hstacks.start, ?_⟩
    intro hentry
    rw [hkind] at hentry
    cases hentry
  | back hleads hdependency =>
    obtain ⟨info, hinfo, hnew⟩ := hstacks.back _ hleads _ hdependency
    rw [← hname] at hinfo hnew ⊢
    cases (hchecked.find hm).symm.trans hinfo
    obtain ⟨rest, _, hbehind, hnil⟩ := newDemultiplyStack_ok hnew
    exact ⟨rest, hbehind, hnil⟩

theorem Arrives.arrived (hchecked : Checked definition) (hexit : exit ∈ definition.nodeInfos) (hkind : exit.kind = .EXIT)
    (hacyclic : Acyclic definition exit.nodeName order) (hstacks : Stacks definition exit stack) {node : NodeInfo}
    {arriving : List String} (h : Arrives definition node arriving) :
    node ∈ definition.nodeInfos ∧ Arrived definition (stack node.nodeName) order node arriving := by
  induction h with
  | @entry entry hm hentry =>
    refine ⟨hm, ?_, by simp, List.Pairwise.nil, by simp⟩
    obtain ⟨_, _, hnil⟩ := hstacks.behind hchecked hexit hkind hacyclic hm
    rw [hnil hentry]
    exact .nil
  | @next dependency node arriving _ hm hfound hdependency ih =>
    obtain ⟨hin, hleads⟩ := hacyclic.names node hm
    obtain ⟨info, hinfo, hnew⟩ := hstacks.back _ hleads _ hdependency
    cases hfound.symm.trans hinfo
    exact ⟨hm, ih.2.output hfound (hacyclic.ordered.rank_lt hin hdependency) hnew⟩

theorem Arrived.unique {node : NodeInfo} {behind : DemultiplyStack} {arriving arriving' : List String}
    (h : Arrived definition behind order node arriving) (h' : Arrived definition behind order node arriving') :
    arriving = arriving' :=
  DependencyOrder.eq_of_perm_of_rank _ (h.levels.perm h'.levels) h.sorted h'.sorted

/-- Nothing comes before the entry. -/
theorem Fed.entry (hfed : Fed definition) (hchecked : Checked definition)
    (hacyclic : Acyclic definition exit.nodeName order) {entry : NodeInfo} (hm : entry ∈ definition.nodeInfos)
    (hentry : entry.kind = .ENTRY) : definition.connectedTo entry.nodeName = [] := by
  by_contra hne
  have hall : ∀ node ∈ definition.nodeInfos, definition.connectedTo node.nodeName ≠ [] := by
    intro node hnode
    by_cases hkind : node.kind = .ENTRY
    · rw [hchecked.entries node hnode entry hm hkind hentry]
      exact hne
    · exact hfed node hnode hkind
  have hnone : ∀ n, ∀ node ∈ definition.nodeInfos, DependencyOrder.rank order node.nodeName = n → False := by
    intro n
    induction n using Nat.strongRecOn with
    | ind n ih =>
      intro node hnode hrank
      obtain ⟨dependency, hdependency⟩ := List.exists_mem_of_ne_nil _ (hall node hnode)
      obtain ⟨info, hinfo, _⟩ := hchecked.dependencies node hnode dependency hdependency
      obtain ⟨hin, rfl⟩ := findNodeByName_mem hinfo
      have hlt := hacyclic.ordered.rank_lt (hacyclic.names node hnode).1 hdependency
      exact ih _ (hrank ▸ hlt) info hin rfl
  exact hnone _ entry hm rfl

theorem exists_arrives (hfed : Fed definition) (hchecked : Checked definition)
    (hacyclic : Acyclic definition exit.nodeName order) {node : NodeInfo} (hm : node ∈ definition.nodeInfos) :
    ∃ arriving, Arrives definition node arriving := by
  generalize hrank : DependencyOrder.rank order node.nodeName = n
  induction n using Nat.strongRecOn generalizing node with
  | ind n ih =>
    by_cases hkind : node.kind = .ENTRY
    · exact ⟨[], .entry hm hkind⟩
    · obtain ⟨dependency, hdependency⟩ := List.exists_mem_of_ne_nil _ (hfed node hm hkind)
      obtain ⟨info, hinfo, _⟩ := hchecked.dependencies node hm dependency hdependency
      obtain ⟨hin, rfl⟩ := findNodeByName_mem hinfo
      have hlt := hacyclic.ordered.rank_lt (hacyclic.names node hm).1 hdependency
      obtain ⟨arriving, harrives⟩ := ih _ (hrank ▸ hlt) hin rfl
      exact ⟨_, .next harrives hm hinfo hdependency⟩

end Sorted

/-- The levels of the sessions of each node, and the levels that it gathers, outermost first. -/
structure Levelled (definition : PipelineDefinition) (levels gathered : String → List String) : Prop where
  entry : ∀ entry ∈ definition.nodeInfos, entry.kind = .ENTRY → levels entry.nodeName = [] ∧
    gathered entry.nodeName = [] ∧ definition.connectedTo entry.nodeName = []
  exit : ∀ exit ∈ definition.nodeInfos, exit.kind = .EXIT → levels exit.nodeName = []
  gathers : ∀ node ∈ definition.nodeInfos, (gathered node.nodeName).toFinset = node.gatherFromNode
  edges : ∀ node ∈ definition.nodeInfos, ∀ dependency, definition.findNodeByName dependency.nodeName = some dependency →
    dependency.nodeName ∈ definition.connectedTo node.nodeName → levels dependency.nodeName ++
      (if dependency.demultiplyCount.isSome then [dependency.nodeName] else []) =
    levels node.nodeName ++ gathered node.nodeName
  nodup : ∀ node ∈ definition.nodeInfos, (levels node.nodeName ++ gathered node.nodeName ++ [node.nodeName]).Nodup
  demultiplexers : ∀ node ∈ definition.nodeInfos, ∀ level ∈ levels node.nodeName ++ gathered node.nodeName,
    ∃ info, definition.findNodeByName level = some info ∧ info.demultiplyCount.isSome

/-- A demultiplexer whose size depends on the request is the only one, so that it is below none. -/
theorem Levelled.dynamic {levels gathered : String → List String} (h : Levelled definition levels gathered)
    (hchecked : Checked definition) {node : NodeInfo} (hm : node ∈ definition.nodeInfos)
    (hdynamic : node.demultiplyCount = some (-1)) : levels node.nodeName = [] := by
  apply List.eq_nil_iff_forall_not_mem.mpr
  intro level hlevel
  obtain ⟨info, hinfo, hsome⟩ := h.demultiplexers node hm level (List.mem_append_left _ hlevel)
  obtain ⟨hin, hlevelName⟩ := findNodeByName_mem hinfo
  have heq := hchecked.dynamic node hm info hin hdynamic hsome
  have hnodup := (List.nodup_append.mp (h.nodup node hm)).2.2
  apply hnodup level (List.mem_append_left _ hlevel) node.nodeName (List.mem_singleton.mpr rfl)
  rw [heq, hlevelName]

/-- The nodes of a definition that has passed its validation have levels, in an order of their dependencies. -/
theorem Validated.levelled {checks : MetadataChecks} (h : Validated definition checks) (hfed : Fed definition) :
    ∃ (exit : NodeInfo) (order : List String) (levels gathered : String → List String), Checked definition ∧
      exit ∈ definition.nodeInfos ∧ exit.kind = .EXIT ∧ Acyclic definition exit.nodeName order ∧
      Levelled definition levels gathered := by
  have hchecked := validateNodes_ok h.nodes
  have hcycles := h.cycles
  have horder := h.order
  unfold validateForCycles at hcycles
  unfold validateDemultiplexerGatherNodesOrder at horder
  cases hfound : definition.nodeInfos.find? (·.kind = .EXIT) with
  | none =>
    rw [hfound] at hcycles
    cases hcycles
  | some exit =>
    rw [hfound] at hcycles horder
    have hexit : exit ∈ definition.nodeInfos := List.mem_of_find?_eq_some hfound
    have hkind : exit.kind = .EXIT := by simpa using List.find?_some hfound
    obtain ⟨order, hacyclic⟩ := validateForCycles_ok hchecked hexit hcycles
    obtain ⟨stack, hstacks⟩ := validateDemultiplexerGatherNodesOrder_ok hchecked hexit hkind horder
    choose arriving harrives using fun (node : NodeInfo) (hm : node ∈ definition.nodeInfos) =>
      exists_arrives hfed hchecked hacyclic hm
    have harrived : ∀ node (hm : node ∈ definition.nodeInfos),
        Arrived definition (stack node.nodeName) order node (arriving node hm) := fun node hm =>
      ((harrives node hm).arrived hchecked hexit hkind hacyclic hstacks).2
    obtain ⟨levels, hlevels⟩ : ∃ levels : String → List String, ∀ node (hm : node ∈ definition.nodeInfos),
        levels node.nodeName = sessionLevels node (arriving node hm) := by
      refine ⟨fun name => ((definition.findNodeByName name).map fun node =>
        if hm : node ∈ definition.nodeInfos then sessionLevels node (arriving node hm) else []).getD [], ?_⟩
      intro node hm
      simp [hchecked.find hm, hm]
    obtain ⟨gathered, hgathered⟩ : ∃ gathered : String → List String, ∀ node (hm : node ∈ definition.nodeInfos),
        gathered node.nodeName = gatheredLevels node (arriving node hm) := by
      refine ⟨fun name => ((definition.findNodeByName name).map fun node =>
        if hm : node ∈ definition.nodeInfos then gatheredLevels node (arriving node hm) else []).getD [], ?_⟩
      intro node hm
      simp [hchecked.find hm, hm]
    have happend : ∀ node (hm : node ∈ definition.nodeInfos),
        levels node.nodeName ++ gathered node.nodeName = arriving node hm := by
      intro node hm
      rw [hlevels node hm, hgathered node hm]
      exact List.take_append_drop _ _
    refine ⟨exit, order, levels, gathered, hchecked, hexit, hkind, hacyclic, ?_, ?_, ?_, ?_, ?_, ?_⟩
    · intro entry hm hentry
      have hempty := (harrived entry hm).unique
        ((Arrives.entry hm hentry).arrived hchecked hexit hkind hacyclic hstacks).2
      obtain ⟨hnil, hnil'⟩ := List.append_eq_nil_iff.mp ((happend entry hm).trans hempty)
      exact ⟨hnil, hnil', hfed.entry hchecked hacyclic hm hentry⟩
    · intro exit' hm hkind'
      cases hchecked.exits exit hexit exit' hm hkind hkind'
      have hmatches := (harrived exit hexit).levels
      rw [hstacks.start] at hmatches
      have hsession := matches_sessionLevels hmatches
      rw [← hlevels exit hexit] at hsession
      exact List.perm_nil.mp (hsession.perm .nil)
    · intro node hm
      rw [hgathered node hm]
      obtain ⟨rest, hstack, _⟩ := hstacks.behind hchecked hexit hkind hacyclic hm
      have hmatches := (harrived node hm).levels
      rw [hstack] at hmatches
      exact toFinset_gatheredLevels hmatches
    · intro node hm dependency hfound hdependency
      have hin := (findNodeByName_mem hfound).1
      have harrivesNode := Arrives.next (harrives dependency hin) hm hfound hdependency
      have heq := (harrived node hm).unique (harrivesNode.arrived hchecked hexit hkind hacyclic hstacks).2
      rw [happend node hm, heq, hlevels dependency hin]
      rfl
    · intro node hm
      rw [happend node hm, List.nodup_append]
      refine ⟨(harrived node hm).sorted.imp fun hlt heq => ?_, List.nodup_singleton _, ?_⟩
      · rw [heq] at hlt
        exact Nat.lt_irrefl _ hlt
      · rintro level hlevel other hother rfl
        have hlt := (harrived node hm).before level hlevel
        rw [List.mem_singleton.mp hother] at hlt
        exact Nat.lt_irrefl _ hlt
    · intro node hm
      rw [happend node hm]
      exact (harrived node hm).demultiplexers

end ModelServer.PipelineDefinition
