import ModelServer.NodeInputs
import ModelServer.PipelineSessions

namespace ModelServer.SessionFlow

open NodeSessionMetadata PipelineDefinition Pipeline

/-- The session of a node that a session of a dependency is collapsed to, and what the node gathers. -/
def collapse (node : NodeInfo) (arriving : NodeSessionMetadata) :
    Except String (NodeSessionMetadata × CollapseDetails) :=
  if node.gatherFromNode = ∅ then .ok (arriving, ⟨[], []⟩)
  else arriving.getCollapsedSessionMetadata node.gatherFromNode

/-- The numbers of shards that a session of a demultiplexer may be split into. -/
abbrev Splits := NodeInfo → NodeSessionMetadata → Nat → Prop

/-- The sessions of the nodes, whichever way they are executed in. -/
inductive Session (definition : PipelineDefinition) (splits : Splits) : NodeInfo → NodeSessionMetadata → Prop
  | entry {entry : NodeInfo} : entry ∈ definition.nodeInfos → entry.kind = .ENTRY → Session definition splits entry {}
  | collapsed {dependency node : NodeInfo} {metadata arriving session : NodeSessionMetadata} {shards : Nat}
      {results : List NodeSessionMetadata} {details : CollapseDetails} :
      Session definition splits dependency metadata → splits dependency metadata shards →
      Node.resultSessions dependency metadata shards = .ok results → arriving ∈ results →
      node ∈ definition.nodeInfos → dependency.nodeName ∈ definition.connectedTo node.nodeName →
      collapse node arriving = .ok (session, details) → Session definition splits node session

/-- A session of a dependency reaches a node. -/
def Arrives (definition : PipelineDefinition) (splits : Splits) (dependency node : NodeInfo)
    (arriving : NodeSessionMetadata) : Prop :=
  ∃ metadata shards results, Session definition splits dependency metadata ∧ splits dependency metadata shards ∧
    Node.resultSessions dependency metadata shards = .ok results ∧ arriving ∈ results ∧
    node ∈ definition.nodeInfos ∧ dependency.nodeName ∈ definition.connectedTo node.nodeName

/-- The sessions that reach a node are below the same levels, and nothing is thrown when their inputs are set. -/
structure Sound (definition : PipelineDefinition) (splits : Splits) : Prop where
  levels : ∀ node dependency dependency' arriving arriving', Arrives definition splits dependency node arriving →
    Arrives definition splits dependency' node arriving' → arriving.sessionsLevels = arriving'.sessionsLevels
  accepted : ∀ dependency node arriving, Arrives definition splits dependency node arriving →
    ∃ key session details shardId, arriving.createSessionKey node.gatherFromNode = .ok key ∧
      collapse node arriving = .ok (session, details) ∧ session.createSessionKey ∅ = .ok key ∧
      arriving.getShardId node.gatherFromNode = .ok shardId

/-- Each session of a demultiplexer is split into this many shards. -/
def exactly (shards : NodeInfo → NodeSessionMetadata → Nat) : Splits := fun node metadata n => n = shards node metadata

/-- The sessions of the demultiplexers can be split so. -/
def Splitting (definition : PipelineDefinition) (shards : NodeInfo → NodeSessionMetadata → Nat) : Prop :=
  ∀ node metadata, Session definition (exactly shards) node metadata → node.demultiplyCount.isSome →
    ∃ results, Node.resultSessions node metadata (shards node metadata) = .ok results

/-- Sessions are told apart by their keys, a session gets the inputs of every dependency, once for each shard that it
gathers, and the exit has one session. -/
structure Complete (definition : PipelineDefinition) (splits : Splits) : Prop where
  keys : ∀ node dependency dependency' arriving arriving', Arrives definition splits dependency node arriving →
    Arrives definition splits dependency' node arriving' →
    arriving.createSessionKey node.gatherFromNode = arriving'.createSessionKey node.gatherFromNode →
    collapse node arriving = collapse node arriving'
  receives : ∀ dependency node arriving session details, Arrives definition splits dependency node arriving →
    collapse node arriving = .ok (session, details) → ∀ other ∈ definition.connectedTo node.nodeName,
    ∃ info, definition.findNodeByName other = some info ∧
      ∀ ids, List.Forall₂ (· < ·) ids details.collapsedSessionSizes →
        ∃! arriving', Arrives definition splits info node arriving' ∧
          collapse node arriving' = .ok (session, details) ∧
          details.collapsedSessionNames.map arriving'.subsessionId = ids
  exit : ∀ exit ∈ definition.nodeInfos, exit.kind = .EXIT →
    ∀ metadata, Session definition splits exit metadata ↔ metadata = {}

variable {definition : PipelineDefinition} {splits : Splits} {levels gathered : String → List String}
  {size size' : String → Nat} {names : List String} {node dependency : NodeInfo}
  {metadata arriving : NodeSessionMetadata} {index : List Nat}

theorem Arrives.session {session : NodeSessionMetadata} {details : CollapseDetails}
    (h : Arrives definition splits dependency node arriving) (hcollapse : collapse node arriving = .ok (session, details)) :
    Session definition splits node session := by
  obtain ⟨_, _, _, hsession, hsplits, hresults, hin, hm, hconnected⟩ := h
  exact .collapsed hsession hsplits hresults hin hm hconnected hcollapse

theorem Session.mem (h : Session definition splits node metadata) : node ∈ definition.nodeInfos := by
  cases h with
  | entry hm => exact hm
  | collapsed _ _ _ _ hm => exact hm

section Below

theorem below_congr (h : Below size names metadata index) (hsame : ∀ name ∈ names, size name = size' name) :
    Below size' names metadata index := by
  have hsized : sized size names = sized size' names := by
    apply List.map_congr_left
    intro name hm
    rw [hsame name hm]
  refine ⟨h.named, ?_, ?_⟩
  · rw [← List.map_congr_left hsame]
    exact h.within
  · rw [← hsized]
    exact h.eq_below

/-- A level that is not there may have any size. -/
theorem below_update {name : String} (h : Below size names metadata index) (hnodup : (names ++ [name]).Nodup)
    (shards : Nat) : Below (Function.update size name shards) names metadata index := by
  apply below_congr h
  intro other hother
  rw [Function.update_of_ne]
  rintro rfl
  exact (List.nodup_append.mp hnodup).2.2 _ hother _ (List.mem_singleton.mpr rfl) rfl

theorem below_nil (metadata : NodeSessionMetadata) : below metadata (sized size []) [] = metadata := by
  simp [below, sized]

/-- What the functions of a session say of one that is below the levels of a node and those that the node gathers. -/
theorem collapse_below {names' : List String} (h : Below size (names ++ names') arriving index)
    (hnodup : (names ++ names').Nodup) (hgathers : names'.toFinset = node.gatherFromNode) :
    ∃ above outer inner, index = outer ++ inner ∧ List.Forall₂ (· < ·) inner (names'.map size) ∧
      Below size names above outer ∧ arriving = below above (sized size names') inner ∧
      collapse node arriving = .ok (above, ⟨names', names'.map size⟩) ∧ names'.map arriving.subsessionId = inner ∧
      arriving.createSessionKey node.gatherFromNode = above.createSessionKey ∅ ∧
      arriving.getShardId node.gatherFromNode = .ok (RowMajor.offset (names'.map size) inner % sessionIdWord) := by
  obtain ⟨outer, inner, hindex, houter, hinner, heq⟩ := h.split
  generalize below {} (sized size names) outer = above at houter heq ⊢
  have hfresh := houter.fresh_more hnodup fun name hm => h.named name (List.mem_append_right _ hm)
  have hlength : inner.length = (sized size names').length := by
    rw [hinner.length_eq, List.length_map, length_sized]
  have hkey := createSessionKey_below hfresh hlength houter.levels_nil
  have hids := subsessionId_below hfresh hlength
  rw [sized_fst] at hids
  rw [sized_fst, hgathers] at hkey
  refine ⟨above, outer, inner, hindex, hinner, houter, heq, ?_, by rw [heq]; exact hids, by rw [heq]; exact hkey, ?_⟩
  · unfold collapse
    split
    next hnone =>
      have hnil : names' = [] := List.toFinset_eq_empty_iff _ |>.mp (hgathers.trans hnone)
      subst hnil
      have hinnerNil : inner = [] := List.length_eq_zero_iff.mp (by simpa using hlength)
      rw [heq, hinnerNil, below_nil]
      rfl
    next hsome =>
      have hne : sized size names' ≠ [] := by
        intro hnil
        have hnames : names' = [] := by simpa [sized] using hnil
        rw [← hgathers, hnames] at hsome
        exact hsome rfl
      have hcollapsed := getCollapsedSessionMetadata_below hfresh hne hlength
      rw [sized_fst, hgathers, sized_snd, ← heq] at hcollapsed
      exact hcollapsed
  · by_cases hnil : names' = []
    · subst hnil
      have hnone : node.gatherFromNode = ∅ := by simpa using hgathers.symm
      have hinnerNil : inner = [] := List.length_eq_zero_iff.mp (by simpa using hlength)
      rw [hnone, hinnerNil]
      rfl
    · have hshard := getShardId_below_mod hfresh (by simpa [sized] using hnil) (by simpa using hinner)
      rw [sized_fst, hgathers, sized_snd, ← heq] at hshard
      exact hshard

end Below

section Levelled

theorem kind_of_connected (hchecked : Checked definition) (hin : dependency ∈ definition.nodeInfos)
    (hm : node ∈ definition.nodeInfos) (hconnected : dependency.nodeName ∈ definition.connectedTo node.nodeName) :
    dependency.kind ≠ .EXIT := by
  obtain ⟨info, hinfo, hkind⟩ := hchecked.dependencies node hm _ hconnected
  cases (hchecked.find hin).symm.trans hinfo
  exact hkind

theorem levels_connected (hchecked : Checked definition) (hlevelled : Levelled definition levels gathered)
    (hin : dependency ∈ definition.nodeInfos) (hm : node ∈ definition.nodeInfos)
    (hconnected : dependency.nodeName ∈ definition.connectedTo node.nodeName) :
    levels dependency.nodeName ++ opened dependency = levels node.nodeName ++ gathered node.nodeName :=
  hlevelled.edges node hm dependency (hchecked.find hin) hconnected

theorem levels_nodup (hlevelled : Levelled definition levels gathered) (hm : node ∈ definition.nodeInfos) :
    (levels node.nodeName ++ gathered node.nodeName).Nodup :=
  (List.nodup_append.mp (hlevelled.nodup node hm)).1

theorem opened_nodup (hlevelled : Levelled definition levels gathered) (hm : node ∈ definition.nodeInfos) :
    (levels node.nodeName ++ [node.nodeName]).Nodup := by
  have hnodup := hlevelled.nodup node hm
  rw [List.append_assoc, List.nodup_append] at hnodup
  rw [List.nodup_append]
  refine ⟨hnodup.1, List.nodup_singleton _, fun level hlevel other hother => ?_⟩
  exact hnodup.2.2 level hlevel other (List.mem_append_right _ hother)

/-- The results of a session below the levels of a dependency are below the levels that reach the node. -/
theorem results_below (hchecked : Checked definition) (hlevelled : Levelled definition levels gathered)
    (hin : dependency ∈ definition.nodeInfos) (hm : node ∈ definition.nodeInfos)
    (hconnected : dependency.nodeName ∈ definition.connectedTo node.nodeName)
    (h : Below size (levels dependency.nodeName) metadata index) {shards : Nat}
    (hshards : dependency.demultiplyCount.isSome → shards = size dependency.nodeName)
    {results : List NodeSessionMetadata} (hresults : Node.resultSessions dependency metadata shards = .ok results)
    (harriving : arriving ∈ results) :
    ∃ index, Below size (levels node.nodeName ++ gathered node.nodeName) arriving index := by
  obtain ⟨hnamed, rfl⟩ := resultSessions_ok h (opened_nodup hlevelled hin) (kind_of_connected hchecked hin hm hconnected)
    hshards hresults
  obtain ⟨inner, hinner, rfl⟩ := List.mem_map.mp harriving
  rw [← levels_connected hchecked hlevelled hin hm hconnected]
  exact ⟨_, h.append hnamed (RowMajor.mem_indexes hinner)⟩

end Levelled

section Sound

/-- A session that is split into any number of shards is below a level of that size. -/
theorem exists_results_below (hchecked : Checked definition) (hlevelled : Levelled definition levels gathered)
    (hin : dependency ∈ definition.nodeInfos) (hm : node ∈ definition.nodeInfos)
    (hconnected : dependency.nodeName ∈ definition.connectedTo node.nodeName)
    (h : Below size (levels dependency.nodeName) metadata index) {shards : Nat} {results : List NodeSessionMetadata}
    (hresults : Node.resultSessions dependency metadata shards = .ok results) (harriving : arriving ∈ results) :
    ∃ size index, Below size (levels node.nodeName ++ gathered node.nodeName) arriving index := by
  have hbelow := below_update h (opened_nodup hlevelled hin) shards
  refine ⟨_, results_below hchecked hlevelled hin hm hconnected hbelow (fun _ => ?_) hresults harriving⟩
  rw [Function.update_self]

/-- The sessions of a node are below its levels. -/
theorem Session.placed (h : Session definition splits node metadata) (hchecked : Checked definition)
    (hlevelled : Levelled definition levels gathered) : ∃ size index, Below size (levels node.nodeName) metadata index := by
  induction h with
  | @entry entry hm hkind =>
    refine ⟨fun _ => 1, [], ?_⟩
    rw [(hlevelled.entry entry hm hkind).1]
    exact ⟨by simp, .nil, rfl⟩
  | collapsed hsession _ hresults harriving hm hconnected hcollapse ih =>
    obtain ⟨size, index, hbelow⟩ := ih
    obtain ⟨size', index', harrived⟩ := exists_results_below hchecked hlevelled hsession.mem hm hconnected hbelow hresults
      harriving
    obtain ⟨above, outer, _, _, _, habove, _, hcollapsed, _⟩ := collapse_below harrived (levels_nodup hlevelled hm)
      (hlevelled.gathers _ hm)
    cases hcollapsed.symm.trans hcollapse
    exact ⟨size', outer, habove⟩

theorem Arrives.placed (h : Arrives definition splits dependency node arriving) (hchecked : Checked definition)
    (hlevelled : Levelled definition levels gathered) :
    ∃ size index, Below size (levels node.nodeName ++ gathered node.nodeName) arriving index := by
  obtain ⟨metadata, shards, results, hsession, _, hresults, harriving, hm, hconnected⟩ := h
  obtain ⟨size, index, hbelow⟩ := hsession.placed hchecked hlevelled
  exact exists_results_below hchecked hlevelled hsession.mem hm hconnected hbelow hresults harriving

theorem sessionsLevels_below (h : Below size names metadata index) : metadata.sessionsLevels = names := by
  rw [h.eq_below]
  exact sized_fst size names

theorem sound (hchecked : Checked definition) (hlevelled : Levelled definition levels gathered) (splits : Splits) :
    Sound definition splits := by
  constructor
  · intro node dependency dependency' arriving arriving' h h'
    obtain ⟨_, _, hbelow⟩ := h.placed hchecked hlevelled
    obtain ⟨_, _, hbelow'⟩ := h'.placed hchecked hlevelled
    rw [sessionsLevels_below hbelow, sessionsLevels_below hbelow']
  · intro dependency node arriving h
    obtain ⟨size, index, hbelow⟩ := h.placed hchecked hlevelled
    obtain ⟨_, _, _, _, _, _, _, hm, _⟩ := h
    obtain ⟨above, outer, inner, _, _, habove, _, hcollapse, _, hkey, hshard⟩ := collapse_below hbelow
      (levels_nodup hlevelled hm) (hlevelled.gathers _ hm)
    obtain ⟨key, hkey'⟩ := habove.exists_key (List.nodup_append.mp (opened_nodup hlevelled hm)).1
    exact ⟨key, above, _, _, hkey.trans hkey', hcollapse, hkey', hshard⟩

end Sound

end ModelServer.SessionFlow
