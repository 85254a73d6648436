import ModelServer.PipelineSessions

namespace ModelServer.Pipeline

open NodeSessionMetadata PipelineDefinition

/-- A definition that has passed its validation, with the levels of its nodes and the sizes of its demultiplexers in a
run. -/
structure Graph (definition : PipelineDefinition) (levels gathered : String → List String) (size : String → Nat) :
    Prop where
  checked : Checked definition
  levelled : Levelled definition levels gathered
  created : ∀ connection ∈ definition.connections, (definition.findNodeByName connection.1).isSome
  positive : ∀ name, 0 < size name

/-- A session of a node, by its key. -/
structure IsSession (definition : PipelineDefinition) (levels : String → List String) (size : String → Nat)
    (pair : NodeSessionKeyPair) (node : NodeInfo) (metadata : NodeSessionMetadata) (index : List Nat) : Prop where
  found : definition.findNodeByName pair.1 = some node
  below : Below size (levels pair.1) metadata index
  key : metadata.createSessionKey ∅ = .ok pair.2

/-- The session of a dependency that is handed over to a node, and the session of the node that it belongs to. -/
structure Delivers (definition : PipelineDefinition) (levels gathered : String → List String) (size : String → Nat)
    (handOver : String × String × NodeSessionMetadata) (pair : NodeSessionKeyPair) (metadata : NodeSessionMetadata)
    (inner : List Nat) : Prop where
  node : handOver.2.1 = pair.1
  connected : handOver.1 ∈ definition.connectedTo pair.1
  named : ∀ name ∈ gathered pair.1, name ≠ ""
  within : List.Forall₂ (· < ·) inner ((gathered pair.1).map size)
  eq_below : handOver.2.2 = NodeSessionMetadata.below metadata (sized size (gathered pair.1)) inner

/-- The sessions that a session of a node waits for. -/
def total (definition : PipelineDefinition) (gathered : String → List String) (size : String → Nat)
    (nodeName : String) : Nat :=
  (definition.connectedTo nodeName).length * ((gathered nodeName).map size).prod

/-- The session of a node that a session of a dependency belongs to. -/
def sessionOf (definition : PipelineDefinition) (nodeName : String) (metadata : NodeSessionMetadata) :
    NodeSessionKeyPair :=
  (nodeName, ((metadata.createSessionKey (((definition.findNodeByName nodeName).map (·.gatherFromNode)).getD
    ∅)).toOption).getD "")

variable {definition : PipelineDefinition} {levels gathered : String → List String} {size : String → Nat}
  {pair pair' : NodeSessionKeyPair} {node node' : NodeInfo} {metadata metadata' : NodeSessionMetadata}
  {index index' inner : List Nat} {handOver : String × String × NodeSessionMetadata}

theorem IsSession.info (h : IsSession definition levels size pair node metadata index) :
    node ∈ definition.nodeInfos ∧ node.nodeName = pair.1 := findNodeByName_mem h.found

theorem Graph.nodup (hgraph : Graph definition levels gathered size)
    (h : IsSession definition levels size pair node metadata index) :
    (levels pair.1 ++ gathered pair.1 ++ [pair.1]).Nodup := by
  obtain ⟨hm, hname⟩ := h.info
  have hnodup := hgraph.levelled.nodup node hm
  rwa [hname] at hnodup

theorem Graph.levels_nodup (hgraph : Graph definition levels gathered size)
    (h : IsSession definition levels size pair node metadata index) : (levels pair.1).Nodup := by
  have hnodup := hgraph.nodup h
  rw [List.append_assoc] at hnodup
  exact (List.nodup_append.mp hnodup).1

theorem IsSession.unique (hgraph : Graph definition levels gathered size)
    (h : IsSession definition levels size pair node metadata index)
    (h' : IsSession definition levels size pair node' metadata' index') : metadata = metadata' := by
  apply h.below.eq_of_key h'.below (hgraph.levels_nodup h)
  rw [h.key, h'.key]

theorem Delivers.sessionOf_eq (hgraph : Graph definition levels gathered size)
    (h : Delivers definition levels gathered size handOver pair metadata inner)
    (hsession : IsSession definition levels size pair node metadata index) :
    sessionOf definition handOver.2.1 handOver.2.2 = pair := by
  obtain ⟨hm, hname⟩ := hsession.info
  have hgathers := hgraph.levelled.gathers node hm
  rw [hname] at hgathers
  have hnodup := (List.nodup_append.mp (hgraph.nodup hsession)).1
  have hnone : 0 * ((gathered pair.1).map size).prod < sessionIdWord := by simp [sessionIdWord]
  have hget := getNodeSession_below hsession.below hnodup h.named h.within hgathers
    (fun name _ => hgraph.positive name) hnone hsession.key []
  unfold Node.getNodeSession at hget
  rw [← h.eq_below] at hget
  unfold sessionOf
  rw [h.node, hsession.found]
  show (pair.1, ((handOver.2.2.createSessionKey node.gatherFromNode).toOption).getD "") = pair
  split at hget
  next => cases hget
  next key hkey =>
    have heq : key = pair.2 := by
      simp only [List.lookup_nil, Option.isSome_none, Bool.false_eq_true, ↓reduceIte] at hget
      split at hget
      next => exact (Prod.mk.inj (Prod.mk.inj (Except.ok.inj hget)).1).2
      next =>
        split at hget
        next => cases hget
        next => exact (Prod.mk.inj (Prod.mk.inj (Except.ok.inj hget)).1).2
    rw [hkey, heq]
    rfl

theorem connectedTo_nodup (definition : PipelineDefinition) (nodeName : String) :
    (definition.connectedTo nodeName).Nodup := by
  unfold connectedTo
  cases hlookup : definition.connections.lookup nodeName with
  | none => exact List.nodup_nil
  | some dependencies => exact definition.dependencies_nodup _ (mem_of_lookup hlookup)

section Counting

/-- All that a session waits for. -/
def expected (definition : PipelineDefinition) (gathered : String → List String) (size : String → Nat)
    (nodeName : String) (metadata : NodeSessionMetadata) : List (String × String × NodeSessionMetadata) :=
  (definition.connectedTo nodeName).flatMap fun dependency => (RowMajor.indexes ((gathered nodeName).map size)).map
    fun inner => (dependency, nodeName, below metadata (sized size (gathered nodeName)) inner)

theorem length_expected (definition : PipelineDefinition) (gathered : String → List String) (size : String → Nat)
    (nodeName : String) (metadata : NodeSessionMetadata) :
    (expected definition gathered size nodeName metadata).length = total definition gathered size nodeName := by
  unfold expected total
  rw [List.length_flatMap]
  simp [RowMajor.length_indexes]

theorem expected_nodup (hgraph : Graph definition levels gathered size)
    (h : IsSession definition levels size pair node metadata index) (hnamed : ∀ name ∈ gathered pair.1, name ≠ "") :
    (expected definition gathered size pair.1 metadata).Nodup := by
  have hnodup := (List.nodup_append.mp (hgraph.nodup h)).1
  unfold expected
  rw [List.nodup_flatMap]
  constructor
  · intro dependency _
    apply (RowMajor.nodup_indexes _).map_on
    intro inner hinner inner' hinner' heq
    have hbelow := h.below.append hnamed (RowMajor.mem_indexes hinner)
    have hbelow' := h.below.append hnamed (RowMajor.mem_indexes hinner')
    rw [← (Prod.mk.inj (Prod.mk.inj heq).2).2] at hbelow'
    exact List.append_cancel_left (hbelow.unique hnodup hbelow')
  · apply (connectedTo_nodup definition pair.1).imp
    intro dependency dependency' hne handOver hm hm'
    obtain ⟨_, _, rfl⟩ := List.mem_map.mp hm
    obtain ⟨_, _, heq⟩ := List.mem_map.mp hm'
    exact hne (Prod.mk.inj heq).1.symm

theorem Delivers.mem_expected (h : Delivers definition levels gathered size handOver pair metadata inner) :
    handOver ∈ expected definition gathered size pair.1 metadata := by
  obtain ⟨dependency, nodeName, arriving⟩ := handOver
  obtain rfl := h.node
  obtain rfl := h.eq_below
  exact List.mem_flatMap.mpr ⟨dependency, h.connected, List.mem_map.mpr ⟨inner,
    RowMajor.mem_indexes_of_lt h.within, rfl⟩⟩

/-- A session gets at most what it waits for, and when it has got that much it has got it all. -/
theorem received_le {received : List (String × String × NodeSessionMetadata)} (hnodup : received.Nodup)
    (hdelivers : ∀ handOver ∈ received, ∃ inner, Delivers definition levels gathered size handOver pair metadata inner) :
    received.length ≤ total definition gathered size pair.1 ∧
      (received.length = total definition gathered size pair.1 →
        ∀ handOver ∈ expected definition gathered size pair.1 metadata, handOver ∈ received) := by
  have hsubset : received ⊆ expected definition gathered size pair.1 metadata := by
    intro handOver hm
    obtain ⟨inner, hdeliver⟩ := hdelivers handOver hm
    exact hdeliver.mem_expected
  have hsubperm := List.subperm_of_subset hnodup hsubset
  have hlength := length_expected definition gathered size pair.1 metadata
  refine ⟨hlength ▸ hsubperm.length_le, fun heq handOver hm => ?_⟩
  have hperm := hsubperm.perm_of_length_le (by rw [hlength, heq])
  exact hperm.mem_iff.mpr hm

end Counting

section NextNodes

theorem mem_getNextNodes {dependency nodeName : String} :
    nodeName ∈ getNextNodes definition dependency ↔ dependency ∈ definition.connectedTo nodeName := by
  unfold getNextNodes connectedTo
  constructor
  · intro hm
    obtain ⟨connection, hconnection, rfl⟩ := List.mem_map.mp hm
    obtain ⟨hin, hdependency⟩ := List.mem_filter.mp hconnection
    have hlookup : definition.connections.lookup connection.1 = some connection.2 :=
      lookup_of_mem definition.dependants_nodup hin
    rw [hlookup]
    simpa using hdependency
  · intro hm
    cases hlookup : definition.connections.lookup nodeName with
    | none => simp [hlookup] at hm
    | some dependencies =>
      rw [hlookup] at hm
      apply List.mem_map.mpr
      exact ⟨(nodeName, dependencies), List.mem_filter.mpr ⟨mem_of_lookup hlookup, by simpa using hm⟩, rfl⟩

theorem getNextNodes_nodup (definition : PipelineDefinition) (dependency : String) :
    (getNextNodes definition dependency).Nodup :=
  definition.dependants_nodup.sublist (List.filter_sublist.map Prod.fst)

end NextNodes

section Results

variable {results : List NodeSessionMetadata} {sessions : List NodeSessionMetadata}

/-- The sessions of the results of a session that was fetched. -/
structure ResultsOf (definition : PipelineDefinition) (levels : String → List String) (size : String → Nat)
    (pair : NodeSessionKeyPair) (node : NodeInfo) (metadata : NodeSessionMetadata) (index : List Nat)
    (results : List NodeSessionMetadata) : Prop where
  session : IsSession definition levels size pair node metadata index
  shards : node.kind ≠ .EXIT → node.demultiplyCount.isSome → results.length = size node.nodeName
  sessions : ∃ sessions, Node.resultSessions node metadata results.length = .ok sessions ∧ results.Perm sessions

theorem ResultsOf.perm (hgraph : Graph definition levels gathered size) (hkind : node.kind ≠ .EXIT)
    (h : ResultsOf definition levels size pair node metadata index results) :
    (∀ name ∈ opened node, name ≠ "") ∧ results.Perm
      ((RowMajor.indexes ((opened node).map size)).map (below metadata (sized size (opened node)))) := by
  obtain ⟨sessions, hsessions, hperm⟩ := h.sessions
  have hnodup := hgraph.nodup h.session
  rw [List.append_assoc, List.nodup_append] at hnodup
  obtain ⟨_, hname⟩ := h.session.info
  have hlevels : (levels pair.1 ++ [node.nodeName]).Nodup := by
    rw [hname, List.nodup_append]
    refine ⟨hnodup.1, List.nodup_singleton _, ?_⟩
    intro level hlevel other hother
    exact hnodup.2.2 level hlevel other (List.mem_append_right _ hother)
  obtain ⟨hnamed, heq⟩ := resultSessions_ok h.session.below hlevels hkind (h.shards hkind) hsessions
  exact ⟨hnamed, heq ▸ hperm⟩

theorem ResultsOf.mem_iff (hgraph : Graph definition levels gathered size) (hkind : node.kind ≠ .EXIT)
    (h : ResultsOf definition levels size pair node metadata index results) {result : NodeSessionMetadata} :
    result ∈ results ↔ ∃ inner, List.Forall₂ (· < ·) inner ((opened node).map size) ∧
      result = below metadata (sized size (opened node)) inner := by
  rw [(h.perm hgraph hkind).2.mem_iff, List.mem_map]
  constructor
  · rintro ⟨inner, hinner, rfl⟩
    exact ⟨inner, RowMajor.mem_indexes hinner, rfl⟩
  · rintro ⟨inner, hinner, rfl⟩
    exact ⟨inner, RowMajor.mem_indexes_of_lt hinner, rfl⟩

/-- A result is below the levels of its node and the level that the node opens. -/
theorem ResultsOf.below (hgraph : Graph definition levels gathered size) (hkind : node.kind ≠ .EXIT)
    (h : ResultsOf definition levels size pair node metadata index results) {result : NodeSessionMetadata}
    (hm : result ∈ results) : ∃ inner, inner.length = (opened node).length ∧
      Below size (levels pair.1 ++ opened node) result (index ++ inner) := by
  obtain ⟨inner, hinner, rfl⟩ := (h.mem_iff hgraph hkind).mp hm
  exact ⟨inner, by rw [hinner.length_eq, List.length_map],
    h.session.below.append (h.perm hgraph hkind).1 hinner⟩

theorem opened_nodup (hgraph : Graph definition levels gathered size)
    (h : IsSession definition levels size pair node metadata index) : (levels pair.1 ++ opened node).Nodup := by
  obtain ⟨_, hname⟩ := h.info
  have hnodup := hgraph.nodup h
  rw [List.append_assoc, List.nodup_append] at hnodup
  unfold opened
  split
  next =>
    rw [hname, List.nodup_append]
    refine ⟨hnodup.1, List.nodup_singleton _, ?_⟩
    intro level hlevel other hother
    exact hnodup.2.2 level hlevel other (List.mem_append_right _ hother)
  next =>
    rw [List.append_nil]
    exact hnodup.1

/-- A result belongs to one session of its node. -/
theorem ResultsOf.eq_of_mem (hgraph : Graph definition levels gathered size) (hkind : node.kind ≠ .EXIT)
    {results' : List NodeSessionMetadata} (hsame : pair.1 = pair'.1)
    (h : ResultsOf definition levels size pair node metadata index results)
    (h' : ResultsOf definition levels size pair' node' metadata' index' results') {result : NodeSessionMetadata}
    (hm : result ∈ results) (hm' : result ∈ results') : pair = pair' := by
  have hnode : node = node' := by
    have hfound := h.session.found
    rw [hsame, h'.session.found] at hfound
    exact (Option.some.inj hfound).symm
  subst hnode
  obtain ⟨inner, hlength, hbelow⟩ := h.below hgraph hkind hm
  obtain ⟨inner', hlength', hbelow'⟩ := h'.below hgraph hkind hm'
  rw [← hsame] at hbelow'
  have hindex := hbelow.unique (opened_nodup hgraph h.session) hbelow'
  have heq := (List.append_inj' hindex (hlength.trans hlength'.symm)).1
  subst heq
  have hbelow := h.session.below
  have hbelow' := h'.session.below
  rw [← hsame] at hbelow'
  have hmetadata : metadata = metadata' := by rw [hbelow.eq_below, hbelow'.eq_below]
  subst hmetadata
  apply Prod.ext hsame
  exact Except.ok.inj (h.session.key.symm.trans h'.session.key)

/-- A result that is handed over to a next node belongs to one of its sessions. -/
theorem ResultsOf.delivers (hgraph : Graph definition levels gathered size)
    (h : ResultsOf definition levels size pair node metadata index results) {nextNode : String}
    (hnext : nextNode ∈ getNextNodes definition pair.1) {result : NodeSessionMetadata} (hm : result ∈ results) :
    ∃ pair' node' metadata' index' inner, IsSession definition levels size pair' node' metadata' index' ∧
      Delivers definition levels gathered size (pair.1, nextNode, result) pair' metadata' inner := by
  have hconnected := mem_getNextNodes.mp hnext
  obtain ⟨connection, hconnection, hname⟩ := List.mem_map.mp hnext
  have hcreated := hgraph.created connection (List.mem_filter.mp hconnection).1
  rw [hname] at hcreated
  obtain ⟨node', hfound⟩ := Option.isSome_iff_exists.mp hcreated
  obtain ⟨hm', rfl⟩ := findNodeByName_mem hfound
  obtain ⟨info, hinfo, hkind⟩ := hgraph.checked.dependencies node' hm' _ hconnected
  cases h.session.found.symm.trans hinfo
  obtain ⟨_, hname'⟩ := h.session.info
  have hedge := hgraph.levelled.edges node' hm' node (hname' ▸ h.session.found) (hname' ▸ hconnected)
  rw [hname'] at hedge
  obtain ⟨inner, _, hbelow⟩ := h.below hgraph hkind hm
  have hlevels : levels pair.1 ++ opened node = levels node'.nodeName ++ gathered node'.nodeName := by
    rw [← hedge, opened, hname']
  rw [hlevels] at hbelow
  obtain ⟨outer, inner', _, houter, hinner, heq⟩ := hbelow.split
  have hnodup := hgraph.levelled.nodup node' hm'
  obtain ⟨key, hkey⟩ := houter.exists_key (List.nodup_append.mp (List.nodup_append.mp hnodup).1).1
  refine ⟨(node'.nodeName, key), node', _, outer, inner', ⟨hfound, houter, hkey⟩, rfl, hconnected, ?_, hinner, heq⟩
  intro name hm
  exact hbelow.named name (List.mem_append_right _ hm)

end Results

end ModelServer.Pipeline
