import ModelServer.PipelineValidation

namespace ModelServer.PipelineDefinition

variable {definition : PipelineDefinition}

abbrev Connections := List (String × List (String × Aliases))

/-- `connections[nodeName]`: a node without an entry gets an empty one. -/
def access (connections : Connections) (nodeName : String) : Connections :=
  if (connections.lookup nodeName).isSome then connections else (nodeName, []) :: connections

/-- The search for cycles with the connections it works on. -/
structure CycleDetection where
  search : CycleSearch
  connections : Connections

/-- One round of the loop of `validateForCycles`, with the number of nodes. -/
def detectCycles (nodeCount : Nat) (detection : CycleDetection) :
    CycleDetection ⊕ (Except DefinitionStatus Unit × CycleDetection) :=
  let search := detection.search
  let connections := access detection.connections search.nodeName
  let connectedToNode := ((connections.lookup search.nodeName).getD []).map Prod.fst
  match search.next connectedToNode with
  | .error status => .inr (.error status, ⟨search, connections⟩)
  | .ok (some node) =>
    .inl ⟨⟨node, node :: search.visited, search.nodeName :: search.parentNodes⟩, connections⟩
  | .ok none =>
    match search.parentNodes with
    | [] =>
      if search.visited.length ≠ nodeCount then
        .inr (.error .PIPELINE_CONTAINS_UNCONNECTED_NODES, ⟨search, connections⟩)
      else .inr (.ok (), ⟨search, connections⟩)
    | parent :: parentNodes => .inl ⟨⟨parent, search.visited, parentNodes⟩, connections⟩

/-- `validateForCycles` returns a status and leaves these connections behind. -/
def ValidatesForCycles (definition : PipelineDefinition) (status : Except DefinitionStatus Unit) (detection : CycleDetection) :
    Prop :=
  match definition.nodeInfos.find? (·.kind = .EXIT) with
  | none => status = .error .PIPELINE_MISSING_ENTRY_OR_EXIT ∧ detection = ⟨⟨"", [], []⟩, definition.connections⟩
  | some exit => Loop.Exits (detectCycles definition.nodeInfos.length)
      ⟨⟨exit.nodeName, [exit.nodeName], []⟩, definition.connections⟩ (status, detection)

def Depends (definition : PipelineDefinition) (name dependency : String) : Prop := dependency ∈ definition.connectedTo name

/-- A cycle that the exit depends on. -/
def Cyclic (definition : PipelineDefinition) (exit : String) : Prop :=
  ∃ name, Leads definition exit name ∧ Relation.TransGen definition.Depends name name

/-- A status that says exactly what the graph is like, with an entry for every visited node. -/
structure CyclesDetected (definition : PipelineDefinition) (exit : String) (status : Except DefinitionStatus Unit)
    (detection : CycleDetection) : Prop where
  cycle : status = .error .PIPELINE_CYCLE_FOUND ↔ Cyclic definition exit
  unconnected : status = .error .PIPELINE_CONTAINS_UNCONNECTED_NODES ↔
    ¬ Cyclic definition exit ∧ ∃ node ∈ definition.nodeInfos, ¬ Leads definition exit node.nodeName
  ok : status = .ok () ↔ ¬ Cyclic definition exit ∧ ∀ node ∈ definition.nodeInfos, Leads definition exit node.nodeName
  entries : ∀ name ∈ detection.search.visited, (detection.connections.lookup name).isSome

theorem lookup_access (connections : Connections) (nodeName name : String) :
    ((access connections nodeName).lookup name).getD [] = (connections.lookup name).getD [] := by
  rw [access]
  split
  next => rfl
  next hnone =>
    rw [List.lookup_cons]
    by_cases heq : name = nodeName
    · rw [Option.not_isSome_iff_eq_none] at hnone
      simp [heq, hnone]
    · rw [beq_false_of_ne heq]

theorem lookup_access_self (connections : Connections) (nodeName : String) :
    ((access connections nodeName).lookup nodeName).isSome := by
  rw [access]
  split
  next h => exact h
  next => simp

theorem lookup_access_other {connections : Connections} {name : String} (h : (connections.lookup name).isSome)
    (nodeName : String) : ((access connections nodeName).lookup name).isSome := by
  rw [access]
  split
  next => exact h
  next =>
    rw [List.lookup_cons]
    split
    next => rfl
    next => exact h

theorem next_error {search : CycleSearch} {nodes : List String} {status : DefinitionStatus}
    (h : search.next nodes = .error status) :
    status = .PIPELINE_CYCLE_FOUND ∧ ∃ node ∈ nodes, node = search.nodeName ∨ node ∈ search.parentNodes := by
  induction nodes with
  | nil => cases h
  | cons first nodes ih =>
    rw [CycleSearch.next] at h
    split at h
    next hself =>
      cases h
      exact ⟨rfl, first, List.mem_cons_self, .inl hself.symm⟩
    next =>
      split at h
      next => cases h
      next =>
        split at h
        next hparent =>
          cases h
          exact ⟨rfl, first, List.mem_cons_self, .inr hparent⟩
        next =>
          obtain ⟨hstatus, node, hm, hnode⟩ := ih h
          exact ⟨hstatus, node, List.mem_cons_of_mem _ hm, hnode⟩

/-- The invariant of the loop: what the nodes on the way depend on is known, and all but the current node have an entry. -/
structure Detecting (definition : PipelineDefinition) (exit : String) (detection : CycleDetection) : Prop where
  searching : ∃ order, Searching definition exit detection.search order
  started : exit ∈ detection.search.visited
  way : (detection.search.nodeName :: detection.search.parentNodes).Pairwise fun name parent =>
    Relation.TransGen definition.Depends parent name
  connections : ∀ name, (detection.connections.lookup name).getD [] = (definition.connections.lookup name).getD []
  entries : ∀ name ∈ detection.search.visited, name ≠ detection.search.nodeName → (detection.connections.lookup name).isSome

section Rounds

variable {exit : String} {detection : CycleDetection} (h : Detecting definition exit detection)
include h

theorem Detecting.connectedTo : (((access detection.connections detection.search.nodeName).lookup
    detection.search.nodeName).getD []).map Prod.fst = definition.connectedTo detection.search.nodeName := by
  rw [lookup_access, h.connections]
  rfl

/-- The loop goes as the search does over the connections it started with. -/
theorem Detecting.round : detectCycles definition.nodeInfos.length detection =
    (definition.searchCycles detection.search).map
      (⟨·, access detection.connections detection.search.nodeName⟩)
      (·, ⟨detection.search, access detection.connections detection.search.nodeName⟩) := by
  simp only [detectCycles, searchCycles, h.connectedTo]
  cases hnext : detection.search.next (definition.connectedTo detection.search.nodeName) with
  | error status => rfl
  | ok found =>
    cases found with
    | some node => rfl
    | none =>
      cases hparent : detection.search.parentNodes with
      | cons parent parentNodes => rfl
      | nil =>
        by_cases hlength : detection.search.visited.length ≠ definition.nodeInfos.length
        · simp only [if_pos hlength, Sum.map_inr]
        · simp only [if_neg hlength, Sum.map_inr]

theorem Detecting.accessed : ∀ name ∈ detection.search.visited,
    ((access detection.connections detection.search.nodeName).lookup name).isSome := by
  intro name hm
  by_cases heq : name = detection.search.nodeName
  · exact heq ▸ lookup_access_self _ _
  · exact lookup_access_other (h.entries name hm heq) _

theorem Detecting.leads : Leads definition exit detection.search.nodeName := by
  obtain ⟨order, hsearching⟩ := h.searching
  exact hsearching.leads _ ((hsearching.visited _).mpr (.inr List.mem_cons_self))

theorem Detecting.descend {node : String}
    (hnext : detection.search.next (definition.connectedTo detection.search.nodeName) = .ok (some node)) :
    Detecting definition exit ⟨⟨node, node :: detection.search.visited,
      detection.search.nodeName :: detection.search.parentNodes⟩, access detection.connections detection.search.nodeName⟩ := by
  obtain ⟨order, hsearching⟩ := h.searching
  obtain ⟨hnode, hnew, -⟩ := next_some hnext
  refine ⟨⟨order, hsearching.descend hnode hnew⟩, List.mem_cons_of_mem _ h.started, List.pairwise_cons.mpr ⟨?_, h.way⟩, ?_, ?_⟩
  · intro parent hparent
    have hlast : Relation.TransGen definition.Depends detection.search.nodeName node := .single hnode
    rcases List.mem_cons.mp hparent with heq | hparent
    · exact heq ▸ hlast
    · exact ((List.pairwise_cons.mp h.way).1 parent hparent).trans hlast
  · intro name
    rw [lookup_access, h.connections]
  · intro name hm hne
    rcases List.mem_cons.mp hm with heq | hm
    · exact absurd heq hne
    · exact h.accessed name hm

theorem Detecting.ascend {parent : String} {parentNodes : List String}
    (hnext : detection.search.next (definition.connectedTo detection.search.nodeName) = .ok none)
    (hparent : detection.search.parentNodes = parent :: parentNodes) :
    Detecting definition exit ⟨⟨parent, detection.search.visited, parentNodes⟩,
      access detection.connections detection.search.nodeName⟩ := by
  obtain ⟨order, hsearching⟩ := h.searching
  have hway := h.way
  rw [hparent] at hway
  refine ⟨⟨_, hsearching.ascend hnext hparent⟩, h.started, (List.pairwise_cons.mp hway).2, ?_, ?_⟩
  · intro name
    rw [lookup_access, h.connections]
  · exact fun name hm _ => h.accessed name hm

theorem Detecting.kept {next : CycleDetection} (hround : detectCycles definition.nodeInfos.length detection = .inl next) :
    Detecting definition exit next := by
  rw [h.round, searchCycles] at hround
  split at hround
  next => cases hround
  next node hnext =>
    cases Sum.inl.inj hround
    exact h.descend hnext
  next hnext =>
    split at hround
    next => split at hround <;> cases hround
    next parent parentNodes hparent =>
      cases Sum.inl.inj hround
      exact h.ascend hnext hparent

/-- A dependency on the way back closes a cycle. -/
theorem Detecting.cyclic {status : DefinitionStatus}
    (hnext : detection.search.next (definition.connectedTo detection.search.nodeName) = .error status) :
    status = .PIPELINE_CYCLE_FOUND ∧ Cyclic definition exit := by
  obtain ⟨hstatus, node, hm, hnode⟩ := next_error hnext
  refine ⟨hstatus, detection.search.nodeName, h.leads, ?_⟩
  rcases hnode with heq | hparent
  · exact .single (heq ▸ hm)
  · exact .head hm ((List.pairwise_cons.mp h.way).1 node hparent)

/-- At the end of the search the visited nodes are those that lead to the exit, and they are in order. -/
theorem Detecting.finished (hnext : detection.search.next (definition.connectedTo detection.search.nodeName) = .ok none)
    (hparent : detection.search.parentNodes = []) :
    (∀ name, name ∈ detection.search.visited ↔ Leads definition exit name) ∧ ¬ Cyclic definition exit := by
  obtain ⟨order, hsearching⟩ := h.searching
  have hordered := hsearching.ordered_cons hnext
  have hvisited (name : String) : name ∈ detection.search.visited ↔ name ∈ detection.search.nodeName :: order := by
    rw [hsearching.visited, hparent, List.mem_singleton, List.mem_cons, or_comm]
  have hleads (name : String) (hlead : Leads definition exit name) : name ∈ detection.search.nodeName :: order := by
    induction hlead with
    | exit => exact (hvisited _).mp h.started
    | back _ hdependency ih => exact hordered.mem_of_mem ih hdependency
  constructor
  · exact fun name => ⟨hsearching.leads name, fun hlead => (hvisited name).mpr (hleads name hlead)⟩
  · intro hcyclic
    obtain ⟨name, hlead, hcycle⟩ := hcyclic
    exact hordered.acyclic (hleads name hlead) hcycle

end Rounds

section Search

variable {exit : NodeInfo} (hexit : exit ∈ definition.nodeInfos)
  (hnames : (definition.nodeInfos.map (·.nodeName)).Nodup)
  (hdependencies : ∀ connection ∈ definition.connections, ∀ dependency ∈ connection.2,
    dependency.1 ∈ definition.nodeInfos.map (·.nodeName))

theorem detecting_initial (exit : String) :
    Detecting definition exit ⟨⟨exit, [exit], []⟩, definition.connections⟩ := by
  refine ⟨⟨[], by simp, by simp, by simp, by simp, trivial, ?_⟩, by simp, by simp, fun _ => rfl, ?_⟩
  · intro name hm
    rw [List.mem_singleton.mp hm]
    exact .exit
  · exact fun name hm hne => absurd (List.mem_singleton.mp hm) hne

include hexit hdependencies

theorem leads_named {name : String} (h : Leads definition exit.nodeName name) :
    name ∈ definition.nodeInfos.map (·.nodeName) := by
  cases h with
  | exit => exact List.mem_map.mpr ⟨exit, hexit, rfl⟩
  | @back dependant _ _ hdependency =>
    rw [PipelineDefinition.connectedTo] at hdependency
    obtain ⟨connected, hm, rfl⟩ := List.mem_map.mp hdependency
    cases hlookup : definition.connections.lookup dependant with
    | none => simp [hlookup] at hm
    | some connections =>
      rw [hlookup] at hm
      exact hdependencies _ (mem_of_lookup hlookup) connected hm

theorem Detecting.visited_le {detection : CycleDetection} (h : Detecting definition exit.nodeName detection) :
    detection.search.visited.length ≤ definition.nodeInfos.length := by
  obtain ⟨order, hsearching⟩ := h.searching
  have hsubset : detection.search.visited ⊆ definition.nodeInfos.map (·.nodeName) := fun name hm =>
    leads_named hexit hdependencies (hsearching.leads name hm)
  have hle := (List.subperm_of_subset hsearching.visited_nodup hsubset).length_le
  rwa [List.length_map] at hle

include hnames

theorem Detecting.visited_all {detection : CycleDetection} (h : Detecting definition exit.nodeName detection) :
    detection.search.visited.length = definition.nodeInfos.length ↔
      ∀ node ∈ definition.nodeInfos, node.nodeName ∈ detection.search.visited := by
  obtain ⟨order, hsearching⟩ := h.searching
  constructor
  · intro hlength node hm
    have hsubset : detection.search.visited ⊆ definition.nodeInfos.map (·.nodeName) := fun name hmem =>
      leads_named hexit hdependencies (hsearching.leads name hmem)
    have hperm := (List.subperm_of_subset hsearching.visited_nodup hsubset).perm_of_length_le
      (by rw [List.length_map, hlength])
    exact hperm.mem_iff.mpr (List.mem_map.mpr ⟨node, hm, rfl⟩)
  · intro hall
    have hsubset : definition.nodeInfos.map (·.nodeName) ⊆ detection.search.visited := by
      intro name hm
      obtain ⟨node, hnode, rfl⟩ := List.mem_map.mp hm
      exact hall node hnode
    have hle := (List.subperm_of_subset hnames hsubset).length_le
    rw [List.length_map] at hle
    exact Nat.le_antisymm (h.visited_le hexit hdependencies) hle

/-- What the last round returns. -/
theorem Detecting.last {detection : CycleDetection} (h : Detecting definition exit.nodeName detection)
    {outcome : Except DefinitionStatus Unit × CycleDetection}
    (hround : detectCycles definition.nodeInfos.length detection = .inr outcome) :
    CyclesDetected definition exit.nodeName outcome.1 outcome.2 := by
  rw [h.round, searchCycles] at hround
  split at hround
  next status hnext =>
    obtain ⟨rfl, hcyclic⟩ := h.cyclic hnext
    cases Sum.inr.inj hround
    refine ⟨by simp [hcyclic], by simp [hcyclic], by simp [hcyclic], h.accessed⟩
  next => cases hround
  next hnext =>
    split at hround
    next hparent =>
      obtain ⟨hvisited, hacyclic⟩ := h.finished hnext hparent
      have hall := h.visited_all hexit hnames hdependencies
      simp only [hvisited] at hall
      split at hround
      next hlength =>
        cases Sum.inr.inj hround
        rw [ne_eq, hall] at hlength
        refine ⟨by simp [hacyclic], by simpa [hacyclic] using hlength, by simpa [hacyclic] using hlength, h.accessed⟩
      next hlength =>
        cases Sum.inr.inj hround
        have hconnected := hall.mp (not_not.mp hlength)
        exact ⟨by simp [hacyclic], by simpa [hacyclic] using hconnected, by simpa [hacyclic] using hconnected, h.accessed⟩
    next => cases hround

omit hnames in
/-- Every round visits a node or goes one back. -/
theorem Detecting.next {detection next : CycleDetection} (h : Detecting definition exit.nodeName detection)
    (hround : detectCycles definition.nodeInfos.length detection = .inl next) :
    Detecting definition exit.nodeName next ∧
      2 * (definition.nodeInfos.length - next.search.visited.length) + next.search.parentNodes.length <
        2 * (definition.nodeInfos.length - detection.search.visited.length) + detection.search.parentNodes.length := by
  rw [h.round, searchCycles] at hround
  split at hround
  next => cases hround
  next node hnext =>
    cases Sum.inl.inj hround
    have hdescend := h.descend hnext
    have hle := hdescend.visited_le hexit hdependencies
    refine ⟨hdescend, ?_⟩
    simp only [List.length_cons] at hle ⊢
    omega
  next hnext =>
    split at hround
    next => split at hround <;> cases hround
    next parent parentNodes hparent =>
      cases Sum.inl.inj hround
      refine ⟨h.ascend hnext hparent, ?_⟩
      show 2 * (definition.nodeInfos.length - detection.search.visited.length) + parentNodes.length < _
      rw [hparent, List.length_cons]
      omega

end Search

/-- The search for cycles ends, and its status says exactly whether a cycle can be reached from the exit or a node
cannot. -/
theorem validateForCycles_exact (definition : PipelineDefinition) {exit : NodeInfo} (hexit : exit ∈ definition.nodeInfos)
    (hkind : exit.kind = .EXIT) (hexits : ∀ node ∈ definition.nodeInfos, node.kind = .EXIT → node = exit)
    (hnames : (definition.nodeInfos.map (·.nodeName)).Nodup)
    (hconnections : ∀ connection ∈ definition.connections, connection.1 ∈ definition.nodeInfos.map (·.nodeName) ∧
      ∀ dependency ∈ connection.2, dependency.1 ∈ definition.nodeInfos.map (·.nodeName)) :
    (∃ status detection, definition.ValidatesForCycles status detection) ∧
      ∀ status detection, definition.ValidatesForCycles status detection →
        CyclesDetected definition exit.nodeName status detection := by
  have hdependencies : ∀ connection ∈ definition.connections, ∀ dependency ∈ connection.2,
      dependency.1 ∈ definition.nodeInfos.map (·.nodeName) := fun connection hm => (hconnections connection hm).2
  have hfound : definition.nodeInfos.find? (·.kind = .EXIT) = some exit := by
    cases hfind : definition.nodeInfos.find? (·.kind = .EXIT) with
    | none =>
      have hnone := List.find?_eq_none.mp hfind exit hexit
      simp [hkind] at hnone
    | some node =>
      rw [hexits node (List.mem_of_find?_eq_some hfind) (by simpa using List.find?_some hfind)]
  have hinitial : Detecting definition exit.nodeName ⟨⟨exit.nodeName, [exit.nodeName], []⟩, definition.connections⟩ :=
    detecting_initial exit.nodeName
  constructor
  · obtain ⟨outcome, houtcome⟩ : ∃ outcome, Loop.Exits (detectCycles definition.nodeInfos.length)
        ⟨⟨exit.nodeName, [exit.nodeName], []⟩, definition.connections⟩ outcome :=
      ⟨_, Loop.run_exits_keeping
        (fun detection => 2 * (definition.nodeInfos.length - detection.search.visited.length) + detection.search.parentNodes.length)
        (fun _ _ h hround => h.next hexit hdependencies hround)
        (.ok (), ⟨⟨exit.nodeName, [], []⟩, []⟩) hinitial (Nat.lt_succ_self _)⟩
    refine ⟨outcome.1, outcome.2, ?_⟩
    simpa only [ValidatesForCycles, hfound] using houtcome
  · intro status detection h
    simp only [ValidatesForCycles, hfound] at h
    exact h.invariant (Q := fun outcome => CyclesDetected definition exit.nodeName outcome.1 outcome.2)
      (fun _ _ hdetecting hround => (hdetecting.next hexit hdependencies hround).1)
      (fun _ _ hdetecting hround => hdetecting.last hexit hnames hdependencies hround) hinitial

/-- Two models that wait for each other, and one that nothing depends on. -/
def waiting : PipelineDefinition where
  nodeInfos := [⟨.ENTRY, "request", none, ∅⟩, ⟨.DL, "detector", none, ∅⟩, ⟨.DL, "classifier", none, ∅⟩,
    ⟨.DL, "logger", none, ∅⟩, ⟨.EXIT, "response", none, ∅⟩]
  connections := [("response", [("classifier", [("label", "label")])]), ("detector", [("classifier", [("label", "image")])]),
    ("classifier", [("request", [("image", "image")]), ("detector", [("box", "box")])])]
  dependants_nodup := by decide
  dependencies_nodup := by decide

theorem validateForCycles_exact_waiting : (∃ status detection, waiting.ValidatesForCycles status detection) ∧
    ∀ status detection, waiting.ValidatesForCycles status detection → CyclesDetected waiting "response" status detection :=
  @validateForCycles_exact waiting ⟨.EXIT, "response", none, ∅⟩ (by decide) rfl (by decide) (by decide) (by decide)

end ModelServer.PipelineDefinition
