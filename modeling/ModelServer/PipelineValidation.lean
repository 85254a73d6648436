import Mathlib.Data.List.Nodup
import Mathlib.Data.List.Perm.Basic
import ModelServer.DependencyOrder
import ModelServer.NodeSessionMetadata
import ModelServer.PipelineDefinition

namespace ModelServer.PipelineDefinition

variable {definition : PipelineDefinition} {checks : MetadataChecks}

theorem eq_of_countP_le_one {α : Type} {p : α → Bool} {xs : List α} (h : xs.countP p ≤ 1) {x y : α} (hx : x ∈ xs)
    (hy : y ∈ xs) (hpx : p x = true) (hpy : p y = true) : x = y := by
  rw [List.countP_eq_length_filter] at h
  have hmx : x ∈ xs.filter p := List.mem_filter.mpr ⟨hx, hpx⟩
  have hmy : y ∈ xs.filter p := List.mem_filter.mpr ⟨hy, hpy⟩
  cases hfilter : xs.filter p with
  | nil => simp [hfilter] at hmx
  | cons z zs =>
    rw [hfilter] at h hmx hmy
    have hzs : zs = [] := List.length_eq_zero_iff.mp (by simpa using h)
    subst hzs
    rw [List.mem_singleton.mp hmx, List.mem_singleton.mp hmy]

theorem findNodeByName_mem {name : String} {info : NodeInfo} (h : definition.findNodeByName name = some info) :
    info ∈ definition.nodeInfos ∧ info.nodeName = name :=
  ⟨List.mem_of_find?_eq_some h, by simpa using List.find?_some h⟩

/-- What the validation of the nodes says of the graph. -/
structure Checked (definition : PipelineDefinition) : Prop where
  names : (definition.nodeInfos.map (·.nodeName)).Nodup
  dependencies : ∀ node ∈ definition.nodeInfos, ∀ dependency ∈ definition.connectedTo node.nodeName,
    ∃ info, definition.findNodeByName dependency = some info ∧ info.kind ≠ .EXIT
  gathered : ∀ node ∈ definition.nodeInfos, ∀ gather ∈ node.gatherFromNode,
    ∃ info, definition.findNodeByName gather = some info ∧ info.demultiplyCount.isSome
  entry : ∃ entry ∈ definition.nodeInfos, entry.kind = .ENTRY
  entries : ∀ node ∈ definition.nodeInfos, ∀ node' ∈ definition.nodeInfos, node.kind = .ENTRY → node'.kind = .ENTRY →
    node = node'
  exits : ∀ node ∈ definition.nodeInfos, ∀ node' ∈ definition.nodeInfos, node.kind = .EXIT → node'.kind = .EXIT →
    node = node'
  dynamic : ∀ node ∈ definition.nodeInfos, ∀ node' ∈ definition.nodeInfos, node.demultiplyCount = some (-1) →
    node'.demultiplyCount.isSome → node = node'

theorem validateConnections_ok {node : NodeInfo} {connections : List (String × Aliases)}
    (h : definition.validateConnections checks node connections = .ok ()) :
    ∀ dependency ∈ connections.map Prod.fst,
      ∃ info, definition.findNodeByName dependency = some info ∧ info.kind ≠ .EXIT := by
  induction connections with
  | nil => simp
  | cons connection connections ih =>
    obtain ⟨name, mapping⟩ := connection
    rw [validateConnections] at h
    split at h
    next => cases h
    next =>
      split at h
      next => cases h
      next info hinfo =>
        split at h
        next => cases h
        next =>
          intro dependency hm
          rcases List.mem_cons.mp hm with rfl | hm
          · unfold getDependencyNodeInfo at hinfo
            split at hinfo
            next => cases hinfo
            next found hfound =>
              split at hinfo
              next => cases hinfo
              next hkind => exact ⟨found, hfound, hkind⟩
          · exact ih h dependency hm

theorem validateGatherNode_ok {node : NodeInfo} (h : definition.validateGatherNode node = .ok ()) :
    ∀ gather ∈ node.gatherFromNode,
      ∃ info, definition.findNodeByName gather = some info ∧ info.demultiplyCount.isSome := by
  unfold validateGatherNode at h
  simp only at h
  split at h
  next => split at h <;> cases h
  next hempty =>
    intro gather hm
    rw [Finset.not_nonempty_iff_eq_empty, Finset.filter_eq_empty_iff] at hempty
    have hcount := hempty hm
    cases hfound : definition.findNodeByName gather with
    | none => simp [hfound] at hcount
    | some info =>
      rw [hfound] at hcount
      exact ⟨info, rfl, Option.isSome_iff_ne_none.mpr hcount⟩

theorem validateEach_ok {nodes : List NodeInfo} (h : definition.validateEach checks nodes = .ok ()) :
    ∀ node ∈ nodes, definition.nodeInfos.countP (·.nodeName = node.nodeName) ≤ 1 ∧
      (∀ dependency ∈ definition.connectedTo node.nodeName,
        ∃ info, definition.findNodeByName dependency = some info ∧ info.kind ≠ .EXIT) ∧
      ∀ gather ∈ node.gatherFromNode,
        ∃ info, definition.findNodeByName gather = some info ∧ info.demultiplyCount.isSome := by
  induction nodes with
  | nil => simp
  | cons first nodes ih =>
    rw [validateEach] at h
    split at h
    next => cases h
    next hcount =>
      split at h
      next => cases h
      next hnode =>
        intro node hm
        rcases List.mem_cons.mp hm with rfl | hm
        · unfold validateNode at hnode
          split at hnode
          next => cases hnode
          next =>
            split at hnode
            next => cases hnode
            next hgather =>
              split at hnode
              next => cases hnode
              next hconnections =>
                exact ⟨by omega, validateConnections_ok hconnections, validateGatherNode_ok hgather⟩
        · exact ih h node hm

theorem validateNodes_ok (h : definition.validateNodes checks = .ok ()) : Checked definition := by
  unfold validateNodes at h
  simp only at h
  split at h
  next => cases h
  next hentry =>
    split at h
    next => cases h
    next hexit =>
      split at h
      next => cases h
      next hentries =>
        split at h
        next => cases h
        next hexits =>
          split at h
          next => cases h
          next hdynamic =>
            have heach := validateEach_ok h
            refine ⟨?_, fun node hm => (heach node hm).2.1, fun node hm => (heach node hm).2.2, ?_, ?_, ?_, ?_⟩
            · rw [List.nodup_iff_count_le_one]
              intro name
              by_cases hname : name ∈ definition.nodeInfos.map (·.nodeName)
              · obtain ⟨node, hm, rfl⟩ := List.mem_map.mp hname
                have hone := (heach node hm).1
                rw [List.count, List.countP_map]
                exact hone
              · rw [List.count_eq_zero_of_not_mem hname]
                omega
            · obtain ⟨entry, hm, hkind⟩ := List.countP_pos_iff.mp (Nat.pos_of_ne_zero hentry)
              exact ⟨entry, hm, by simpa using hkind⟩
            · intro node hm node' hm' hkind hkind'
              exact eq_of_countP_le_one (Nat.le_of_not_lt hentries) hm hm' (decide_eq_true hkind) (decide_eq_true hkind')
            · intro node hm node' hm' hkind hkind'
              exact eq_of_countP_le_one (Nat.le_of_not_lt hexits) hm hm' (decide_eq_true hkind) (decide_eq_true hkind')
            · intro node hm node' hm' hcount hsome
              have hany : definition.nodeInfos.any (·.demultiplyCount = some (-1)) = true :=
                List.any_eq_true.mpr ⟨node, hm, decide_eq_true hcount⟩
              rw [hany, Bool.true_and, decide_eq_true_eq] at hdynamic
              exact eq_of_countP_le_one (Nat.le_of_not_lt hdynamic) hm hm' (by rw [hcount]; rfl) hsome

theorem Checked.find (h : Checked definition) {node : NodeInfo} (hm : node ∈ definition.nodeInfos) :
    definition.findNodeByName node.nodeName = some node := by
  cases hfound : definition.findNodeByName node.nodeName with
  | none =>
    have hnone := List.find?_eq_none.mp hfound node hm
    simp at hnone
  | some info =>
    obtain ⟨hinfo, hname⟩ := findNodeByName_mem hfound
    rw [List.inj_on_of_nodup_map h.names hinfo hm hname]

section Cycles

/-- The nodes from which the exit can be reached. -/
inductive Leads (definition : PipelineDefinition) (exit : String) : String → Prop
  | exit : Leads definition exit exit
  | back {name dependency : String} : Leads definition exit name → dependency ∈ definition.connectedTo name →
      Leads definition exit dependency

theorem next_some {search : CycleSearch} {nodes : List String} {node : String}
    (h : search.next nodes = .ok (some node)) : node ∈ nodes ∧ node ∉ search.visited ∧ search.nodeName ≠ node := by
  induction nodes with
  | nil => cases h
  | cons first nodes ih =>
    rw [CycleSearch.next] at h
    split at h
    next => cases h
    next hself =>
      split at h
      next hnew =>
        cases h
        exact ⟨List.mem_cons_self, hnew, hself⟩
      next =>
        split at h
        next => cases h
        next =>
          obtain ⟨hm, hrest⟩ := ih h
          exact ⟨List.mem_cons_of_mem _ hm, hrest⟩

theorem next_none {search : CycleSearch} {nodes : List String} (h : search.next nodes = .ok none) :
    ∀ node ∈ nodes, search.nodeName ≠ node ∧ node ∈ search.visited ∧ node ∉ search.parentNodes := by
  induction nodes with
  | nil => simp
  | cons first nodes ih =>
    rw [CycleSearch.next] at h
    split at h
    next => cases h
    next hself =>
      split at h
      next => cases h
      next hold =>
        split at h
        next => cases h
        next hparent =>
          intro node hm
          rcases List.mem_cons.mp hm with rfl | hm
          · exact ⟨hself, not_not.mp hold, hparent⟩
          · exact ih h node hm

/-- The search between two rounds: the nodes it is done with are in an order of their dependencies. -/
structure Searching (definition : PipelineDefinition) (exit : String) (search : CycleSearch) (order : List String) :
    Prop where
  visited_nodup : search.visited.Nodup
  way_nodup : (search.nodeName :: search.parentNodes).Nodup
  visited : ∀ name, name ∈ search.visited ↔ name ∈ order ∨ name ∈ search.nodeName :: search.parentNodes
  way : ∀ name ∈ search.nodeName :: search.parentNodes, name ∉ order
  ordered : DependencyOrder.Ordered definition.connectedTo order
  leads : ∀ name ∈ search.visited, Leads definition exit name

theorem Searching.descend {exit node : String} {search : CycleSearch} {order : List String}
    (h : Searching definition exit search order) (hnode : node ∈ definition.connectedTo search.nodeName)
    (hnew : node ∉ search.visited) :
    Searching definition exit ⟨node, node :: search.visited, search.nodeName :: search.parentNodes⟩ order := by
  have hnot : node ∉ order ∧ node ∉ search.nodeName :: search.parentNodes := by
    constructor
    · intro hm
      exact hnew ((h.visited node).mpr (.inl hm))
    · intro hm
      exact hnew ((h.visited node).mpr (.inr hm))
  refine ⟨List.nodup_cons.mpr ⟨hnew, h.visited_nodup⟩, List.nodup_cons.mpr ⟨hnot.2, h.way_nodup⟩, ?_, ?_, h.ordered, ?_⟩
  · intro name
    show name ∈ node :: search.visited ↔ _
    rw [List.mem_cons, h.visited name, List.mem_cons (a := name) (b := node)]
    tauto
  · intro name hm
    rcases List.mem_cons.mp hm with rfl | hm
    · exact hnot.1
    · exact h.way name hm
  · intro name hm
    rcases List.mem_cons.mp hm with rfl | hm
    · exact (h.leads _ ((h.visited _).mpr (.inr List.mem_cons_self))).back hnode
    · exact h.leads name hm

/-- A node is done with when all its dependencies are. -/
theorem Searching.ordered_cons {exit : String} {search : CycleSearch} {order : List String}
    (h : Searching definition exit search order)
    (hnext : search.next (definition.connectedTo search.nodeName) = .ok none) :
    DependencyOrder.Ordered definition.connectedTo (search.nodeName :: order) := by
  refine ⟨h.way _ List.mem_cons_self, ?_, h.ordered⟩
  intro dependency hm
  obtain ⟨hself, hvisited, hparent⟩ := next_none hnext dependency hm
  rcases (h.visited dependency).mp hvisited with hin | hin
  · exact hin
  · rcases List.mem_cons.mp hin with heq | hin
    · exact absurd heq.symm hself
    · exact absurd hin hparent

theorem Searching.ascend {exit parent : String} {parentNodes : List String} {search : CycleSearch}
    {order : List String} (h : Searching definition exit search order)
    (hnext : search.next (definition.connectedTo search.nodeName) = .ok none)
    (hparent : search.parentNodes = parent :: parentNodes) :
    Searching definition exit ⟨parent, search.visited, parentNodes⟩ (search.nodeName :: order) := by
  have hnodup := h.way_nodup
  rw [hparent, List.nodup_cons] at hnodup
  refine ⟨h.visited_nodup, hnodup.2, ?_, ?_, h.ordered_cons hnext, h.leads⟩
  · intro name
    show name ∈ search.visited ↔ _
    rw [h.visited name, hparent, List.mem_cons, List.mem_cons (b := search.nodeName)]
    tauto
  · intro name hm
    rw [List.mem_cons, not_or]
    constructor
    · rintro rfl
      exact hnodup.1 hm
    · apply h.way
      rw [hparent]
      exact List.mem_cons_of_mem _ hm

/-- Nodes without a cycle, all of which lead to the exit. -/
structure Acyclic (definition : PipelineDefinition) (exit : String) (order : List String) : Prop where
  ordered : DependencyOrder.Ordered definition.connectedTo order
  names : ∀ node ∈ definition.nodeInfos, node.nodeName ∈ order ∧ Leads definition exit node.nodeName

theorem Checked.leads (hchecked : Checked definition) {exit : NodeInfo} (hexit : exit ∈ definition.nodeInfos)
    {name : String} (h : Leads definition exit.nodeName name) : name ∈ definition.nodeInfos.map (·.nodeName) := by
  induction h with
  | exit => exact List.mem_map.mpr ⟨exit, hexit, rfl⟩
  | back _ hdependency ih =>
    obtain ⟨node, hm, rfl⟩ := List.mem_map.mp ih
    obtain ⟨info, hinfo, _⟩ := hchecked.dependencies node hm _ hdependency
    obtain ⟨hin, hname⟩ := findNodeByName_mem hinfo
    exact List.mem_map.mpr ⟨info, hin, hname⟩

theorem validateForCycles_ok (hchecked : Checked definition) {exit : NodeInfo} (hexit : exit ∈ definition.nodeInfos)
    (h : Loop.Exits definition.searchCycles ⟨exit.nodeName, [exit.nodeName], []⟩ (.ok ())) :
    ∃ order, Acyclic definition exit.nodeName order := by
  have hall := Loop.Exits.invariant (I := fun search => ∃ order, Searching definition exit.nodeName search order)
    (Q := fun status => status = .ok () → ∃ order, Acyclic definition exit.nodeName order) ?_ ?_ h ?_
  · exact hall rfl
  · rintro search next ⟨order, hsearching⟩ hround
    unfold searchCycles at hround
    split at hround
    next => cases hround
    next node hnext =>
      cases Sum.inl.inj hround
      obtain ⟨hnode, hnew, _⟩ := next_some hnext
      exact ⟨order, hsearching.descend hnode hnew⟩
    next hnext =>
      split at hround
      next => split at hround <;> cases hround
      next parent parentNodes hparent =>
        cases Sum.inl.inj hround
        exact ⟨_, hsearching.ascend hnext hparent⟩
  · rintro search status ⟨order, hsearching⟩ hround rfl
    unfold searchCycles at hround
    split at hround
    next => cases hround
    next => cases hround
    next hnext =>
      split at hround
      next hparent =>
        split at hround
        next => cases hround
        next hlength =>
          have hsubset : search.visited ⊆ definition.nodeInfos.map (·.nodeName) := fun name hm =>
            hchecked.leads hexit (hsearching.leads name hm)
          have hperm := (List.subperm_of_subset hsearching.visited_nodup hsubset).perm_of_length_le
            (by rw [List.length_map, not_not.mp hlength])
          refine ⟨search.nodeName :: order, hsearching.ordered_cons hnext, ?_⟩
          intro node hm
          have hvisited := hperm.mem_iff.mpr (List.mem_map.mpr ⟨node, hm, rfl⟩)
          refine ⟨?_, hsearching.leads _ hvisited⟩
          have hin := (hsearching.visited _).mp hvisited
          rw [hparent] at hin
          rcases hin with hin | hin
          · exact List.mem_cons_of_mem _ hin
          · rw [List.mem_singleton.mp hin]
            exact List.mem_cons_self
      next => cases hround
  · refine ⟨[], by simp, by simp, by simp, by simp, trivial, ?_⟩
    intro name hm
    rw [List.mem_singleton.mp hm]
    exact .exit

end Cycles

section GatherOrder

/-- Every dependency of a node was given the stack behind it. -/
def Passed (definition : PipelineDefinition) (visitedNodes : List (String × DemultiplyStack)) (connected : List String)
    (stack : DemultiplyStack) : Prop :=
  ∀ dependency ∈ connected, ∃ info newStack, definition.findNodeByName dependency = some info ∧
    newDemultiplyStack info stack = .ok newStack ∧ visitedNodes.lookup dependency = some newStack

/-- What a search adds to what was visited is left to be checked. -/
structure Extends (search next : OrderSearch) : Prop where
  kept : ∀ name stack, search.visitedNodes.lookup name = some stack → next.visitedNodes.lookup name = some stack
  added : ∀ name stack, next.visitedNodes.lookup name = some stack →
    search.visitedNodes.lookup name = some stack ∨ (name, stack) ∈ next.nodesToCheck
  unchecked : ∀ node ∈ search.nodesToCheck, node ∈ next.nodesToCheck
  new : ∀ node ∈ next.nodesToCheck, node ∈ search.nodesToCheck ∨ next.visitedNodes.lookup node.1 = some node.2

theorem Extends.refl (search : OrderSearch) : Extends search search :=
  ⟨fun _ _ h => h, fun _ _ h => .inl h, fun _ h => h, fun _ h => .inl h⟩

theorem Extends.trans {search middle next : OrderSearch} (h : Extends search middle) (h' : Extends middle next) :
    Extends search next := by
  refine ⟨fun name stack hm => h'.kept _ _ (h.kept _ _ hm), ?_, fun node hm => h'.unchecked _ (h.unchecked _ hm), ?_⟩
  · intro name stack hm
    rcases h'.added name stack hm with hm | hm
    · exact (h.added name stack hm).imp_right (h'.unchecked _)
    · exact .inr hm
  · intro node hm
    rcases h'.new node hm with hm | hm
    · exact (h.new node hm).imp_right (h'.kept _ _)
    · exact .inr hm

theorem Extends.visit {search : OrderSearch} {name : String} (hnew : search.visitedNodes.lookup name = none)
    (stack : DemultiplyStack) :
    Extends search ⟨(name, stack) :: search.nodesToCheck, (name, stack) :: search.visitedNodes⟩ := by
  have hlookup : ∀ other, List.lookup other ((name, stack) :: search.visitedNodes) =
      if other = name then some stack else search.visitedNodes.lookup other := by
    intro other
    rw [List.lookup_cons]
    by_cases heq : other = name
    · simp [heq]
    · simp [heq, beq_false_of_ne heq]
  refine ⟨?_, ?_, fun node hm => List.mem_cons_of_mem _ hm, ?_⟩
  · intro other otherStack hm
    have hne : other ≠ name := by
      rintro rfl
      rw [hnew] at hm
      cases hm
    rw [hlookup, if_neg hne]
    exact hm
  · intro other otherStack hm
    rw [hlookup] at hm
    split at hm
    next heq =>
      cases hm
      rw [heq]
      exact .inr List.mem_cons_self
    next => exact .inl hm
  · intro node hm
    rcases List.mem_cons.mp hm with rfl | hm
    · right
      rw [hlookup, if_pos rfl]
    · exact .inl hm

theorem checkConnected_ok {stack : DemultiplyStack} {connected : List String} {search next : OrderSearch}
    (h : definition.checkConnected stack connected search = .ok next) :
    Extends search next ∧ definition.Passed next.visitedNodes connected stack := by
  induction connected generalizing search with
  | nil =>
    cases h
    exact ⟨.refl _, by simp [Passed]⟩
  | cons name connected ih =>
    rw [checkConnected] at h
    split at h
    next => cases h
    next info hinfo =>
      split at h
      next => cases h
      next newStack hstack =>
        split at h
        next visitedStack hvisited =>
          split at h
          next => cases h
          next hsame =>
            obtain ⟨hextends, hpassed⟩ := ih h
            refine ⟨hextends, ?_⟩
            intro dependency hm
            rcases List.mem_cons.mp hm with rfl | hm
            · rw [not_not.mp hsame] at hvisited
              exact ⟨info, newStack, hinfo, hstack, hextends.kept _ _ hvisited⟩
            · exact hpassed dependency hm
        next hnew =>
          obtain ⟨hextends, hpassed⟩ := ih h
          refine ⟨(Extends.visit hnew newStack).trans hextends, ?_⟩
          intro dependency hm
          rcases List.mem_cons.mp hm with rfl | hm
          · refine ⟨info, newStack, hinfo, hstack, hextends.kept _ _ ?_⟩
            simp
          · exact hpassed dependency hm

/-- The search between two rounds: the nodes that were visited and are not left to be checked have been checked. -/
structure Ordering (definition : PipelineDefinition) (exit : NodeInfo) (search : OrderSearch) : Prop where
  unchecked : ∀ node ∈ search.nodesToCheck, node = (exit.nodeName, exitStack exit) ∨
    search.visitedNodes.lookup node.1 = some node.2
  checked : ∀ name stack, ((name, stack) = (exit.nodeName, exitStack exit) ∨
      search.visitedNodes.lookup name = some stack) → (name, stack) ∈ search.nodesToCheck ∨
    definition.Passed search.visitedNodes (definition.connectedTo name) stack

theorem Ordering.round {exit : NodeInfo} {search next : OrderSearch} (h : Ordering definition exit search)
    (hround : definition.searchOrder search = .inl next) : Ordering definition exit next := by
  unfold searchOrder at hround
  split at hround
  next => cases hround
  next name stack nodesToCheck hnodes =>
    split at hround
    next => cases hround
    next hconnected =>
      cases Sum.inl.inj hround
      obtain ⟨hextends, hpassed⟩ := checkConnected_ok hconnected
      constructor
      · intro node hm
        rcases hextends.new node hm with hm | hm
        · rcases h.unchecked node (by rw [hnodes]; exact List.mem_cons_of_mem _ hm) with heq | hvisited
          · exact .inl heq
          · exact .inr (hextends.kept _ _ hvisited)
        · exact .inr hm
      · intro other otherStack hknown
        have hknown : ((other, otherStack) = (exit.nodeName, exitStack exit) ∨
            search.visitedNodes.lookup other = some otherStack) ∨ (other, otherStack) ∈ next.nodesToCheck := by
          rcases hknown with heq | hvisited
          · exact .inl (.inl heq)
          · exact (hextends.added _ _ hvisited).imp_left .inr
        rcases hknown with hknown | hm
        · rcases h.checked other otherStack hknown with hm | hpassedOther
          · rw [hnodes] at hm
            rcases List.mem_cons.mp hm with heq | hm
            · cases heq
              exact .inr hpassed
            · exact .inl (hextends.unchecked _ hm)
          · right
            intro dependency hdependency
            obtain ⟨info, newStack, hinfo, hstack, hvisited⟩ := hpassedOther dependency hdependency
            exact ⟨info, newStack, hinfo, hstack, hextends.kept _ _ hvisited⟩
        · exact .inl hm

/-- A stack at each node, from the exit backwards. -/
structure Stacks (definition : PipelineDefinition) (exit : NodeInfo) (stack : String → DemultiplyStack) : Prop where
  start : stack exit.nodeName = exitStack exit
  back : ∀ name, Leads definition exit.nodeName name → ∀ dependency ∈ definition.connectedTo name,
    ∃ info, definition.findNodeByName dependency = some info ∧
      newDemultiplyStack info (stack name) = .ok (stack dependency)

theorem Checked.exit_ne (hchecked : Checked definition) {exit : NodeInfo} (hexit : exit ∈ definition.nodeInfos)
    (hkind : exit.kind = .EXIT) {name dependency : String} (hname : name ∈ definition.nodeInfos.map (·.nodeName))
    (hdependency : dependency ∈ definition.connectedTo name) : dependency ≠ exit.nodeName := by
  rintro rfl
  obtain ⟨node, hm, rfl⟩ := List.mem_map.mp hname
  obtain ⟨info, hinfo, hne⟩ := hchecked.dependencies node hm _ hdependency
  cases (hchecked.find hexit).symm.trans hinfo
  exact hne hkind

theorem validateDemultiplexerGatherNodesOrder_ok (hchecked : Checked definition) {exit : NodeInfo}
    (hexit : exit ∈ definition.nodeInfos) (hkind : exit.kind = .EXIT)
    (h : Loop.Exits definition.searchOrder ⟨[(exit.nodeName, exitStack exit)], []⟩ (.ok ())) :
    ∃ stack, Stacks definition exit stack := by
  obtain ⟨visitedNodes, hpassed⟩ : ∃ visitedNodes : List (String × DemultiplyStack), ∀ name stack,
      ((name, stack) = (exit.nodeName, exitStack exit) ∨ visitedNodes.lookup name = some stack) →
      definition.Passed visitedNodes (definition.connectedTo name) stack := by
    have hall := Loop.Exits.invariant (I := Ordering definition exit)
      (Q := fun status => status = .ok () → ∃ visitedNodes : List (String × DemultiplyStack), ∀ name stack,
        ((name, stack) = (exit.nodeName, exitStack exit) ∨ visitedNodes.lookup name = some stack) →
        definition.Passed visitedNodes (definition.connectedTo name) stack) ?_ ?_ h ?_
    · exact hall rfl
    · exact fun search next hordering hround => hordering.round hround
    · rintro search status hordering hround rfl
      unfold searchOrder at hround
      split at hround
      next hnodes =>
        refine ⟨search.visitedNodes, fun name stack hknown => ?_⟩
        have hchecked := hordering.checked name stack hknown
        rw [hnodes] at hchecked
        simpa using hchecked
      next => split at hround <;> cases hround
    · constructor
      · intro node hm
        exact .inl (List.mem_singleton.mp hm)
      · rintro name stack (heq | hvisited)
        · exact .inl (List.mem_singleton.mpr heq)
        · cases hvisited
  obtain ⟨stack, hstack⟩ : ∃ stack : String → DemultiplyStack, stack = fun name =>
      if name = exit.nodeName then exitStack exit else (visitedNodes.lookup name).getD [] := ⟨_, rfl⟩
  have hdependency : ∀ name, Leads definition exit.nodeName name → ((name, stack name) = (exit.nodeName, exitStack exit) ∨
      visitedNodes.lookup name = some (stack name)) → ∀ dependency ∈ definition.connectedTo name,
      ∃ info, definition.findNodeByName dependency = some info ∧
        newDemultiplyStack info (stack name) = .ok (stack dependency) ∧
        visitedNodes.lookup dependency = some (stack dependency) := by
    intro name hleads hknown dependency hm
    obtain ⟨info, newStack, hinfo, hnew, hvisited⟩ := hpassed name _ hknown dependency hm
    have hne := hchecked.exit_ne hexit hkind (hchecked.leads hexit hleads) hm
    have heq : stack dependency = newStack := by
      simp [hstack, hne, hvisited]
    rw [heq]
    exact ⟨info, hinfo, hnew, hvisited⟩
  have hknown : ∀ name, Leads definition exit.nodeName name →
      ((name, stack name) = (exit.nodeName, exitStack exit) ∨ visitedNodes.lookup name = some (stack name)) := by
    intro name hleads
    induction hleads with
    | exit =>
      left
      simp [hstack]
    | back hleads hm ih =>
      obtain ⟨_, _, _, hvisited⟩ := hdependency _ hleads ih _ hm
      exact .inr hvisited
  refine ⟨stack, by simp [hstack], fun name hleads dependency hm => ?_⟩
  obtain ⟨info, hinfo, hnew, _⟩ := hdependency name hleads (hknown name hleads) dependency hm
  exact ⟨info, hinfo, hnew⟩

end GatherOrder

end ModelServer.PipelineDefinition
