import ModelServer.PipelineTracks

namespace ModelServer.Pipeline

open NodeSessionMetadata PipelineDefinition

/-- The course of a run: what was processed is fetched, what was fetched is handed over and what has received all is
executed, but for the session that is being fetched, the sessions that are still to be handed over, the next nodes
that are still to be looked at and the sessions of them that are ready. -/
structure Course (definition : PipelineDefinition) (levels gathered : String → List String) (size : String → Nat)
    (r : Records) (fetching : Option NodeSessionKeyPair) (pending : List (String × String × NodeSessionMetadata))
    (nextNodes : List String) (ready : List NodeSessionKeyPair) : Prop where
  tracks : Tracks definition levels gathered size r
  fetched_nodup : (r.fetched.map Prod.fst).Nodup
  fetched_processed : ∀ pair ∈ r.fetched.map Prod.fst, pair ∈ r.processed
  fetching_new : ∀ pair ∈ fetching, pair ∉ r.fetched.map Prod.fst
  pending_nodup : pending.Nodup
  pending_new : ∀ handOver ∈ pending, handOver ∉ r.handedOver
  pending_next : ∀ handOver ∈ pending, handOver.2.1 ∈ nextNodes ∧ handOver.2.1 ∈ getNextNodes definition handOver.1
  pending_origin : ∀ handOver ∈ pending, ∃ pair results, (pair, results) ∈ r.fetched ∧ pair.1 = handOver.1 ∧
    handOver.2.2 ∈ results
  nextNodes_nodup : nextNodes.Nodup
  nextNodes_fed : ∀ nextNode ∈ nextNodes, definition.connectedTo nextNode ≠ []
  nextNodes_open : ∀ pair ∈ r.executed, pair.1 ∈ nextNodes → kindOf definition pair.1 ≠ .EXIT
  used : ∀ pair ∈ r.executed, r.failed = false ∨ pair.1 ∈ nextNodes → definition.connectedTo pair.1 ≠ [] →
    kindOf definition pair.1 ≠ .EXIT → ∀ session, (pair, session) ∈ r.nodeSessions → session.isUsed
  ready_nodup : ready.Nodup
  ready_new : ∀ pair ∈ ready, pair ∉ r.executed
  ready_behind : ∀ pair ∈ ready, pair.1 ∉ nextNodes
  ready_satisfied : ∀ pair ∈ ready, ∃ session, (pair, session) ∈ r.nodeSessions ∧ session.remainingDependencies = 0
  all_fetched : r.failed = false → ∀ pair ∈ r.processed, pair ∈ r.fetched.map Prod.fst ∨ pair ∈ fetching
  all_handedOver : r.failed = false → ∀ pair results, (pair, results) ∈ r.fetched →
    ∀ nextNode ∈ getNextNodes definition pair.1, ∀ result ∈ results,
      (pair.1, nextNode, result) ∈ r.handedOver ∨ (pair.1, nextNode, result) ∈ pending
  all_executed : r.failed = false → ∀ pair session, (pair, session) ∈ r.nodeSessions →
    session.remainingDependencies = 0 → pair ∈ r.executed ∨ pair.1 ∈ nextNodes ∨ pair ∈ ready

variable {definition : PipelineDefinition} {levels gathered : String → List String} {size : String → Nat}
  {r : Records} {fetching : Option NodeSessionKeyPair} {pending : List (String × String × NodeSessionMetadata)}
  {nextNodes : List String} {ready : List NodeSessionKeyPair}
  {pair : NodeSessionKeyPair} {node : NodeInfo} {metadata : NodeSessionMetadata} {index inner : List Nat}
  {handOver : String × String × NodeSessionMetadata} {results : List NodeSessionMetadata}

section Moves

theorem Course.fail (h : Course definition levels gathered size r fetching pending nextNodes ready) :
    Course definition levels gathered size { r with failed := true } none [] nextNodes [] :=
  { h with
    tracks := { h.tracks with }
    fetching_new := fun _ hm => absurd hm (Option.not_mem_none _)
    pending_nodup := List.nodup_nil
    pending_new := fun _ hm => absurd hm List.not_mem_nil
    pending_next := fun _ hm => absurd hm List.not_mem_nil
    pending_origin := fun _ hm => absurd hm List.not_mem_nil
    used := fun other hm hnext => h.used other hm (.inr (hnext.resolve_left Bool.noConfusion))
    ready_nodup := List.nodup_nil
    ready_new := fun _ hm => absurd hm List.not_mem_nil
    ready_behind := fun _ hm => absurd hm List.not_mem_nil
    ready_satisfied := fun _ hm => absurd hm List.not_mem_nil
    all_fetched := Bool.noConfusion
    all_handedOver := Bool.noConfusion
    all_executed := Bool.noConfusion }

theorem Course.halt (h : Course definition levels gathered size r fetching pending nextNodes ready)
    (hfailed : r.failed = true) : Course definition levels gathered size r none [] nextNodes [] := by
  have hfail := h.fail
  rwa [← hfailed] at hfail

/-- After an error the next nodes may be left out. -/
theorem Course.leave (h : Course definition levels gathered size r fetching pending nextNodes ready)
    (hfailed : r.failed = true) : Course definition levels gathered size r none [] [] [] :=
  { h.halt hfailed with
    pending_next := fun _ hm => absurd hm List.not_mem_nil
    nextNodes_nodup := List.nodup_nil
    nextNodes_fed := fun _ hm => absurd hm List.not_mem_nil
    nextNodes_open := fun _ _ hm => absurd hm List.not_mem_nil
    used := fun other hm hnext => h.used other hm (.inl (hnext.resolve_right List.not_mem_nil))
    ready_behind := fun _ hm => absurd hm List.not_mem_nil
    all_executed := fun hnot => absurd (hfailed.symm.trans hnot) Bool.noConfusion }

/-- The event of a session is processed. -/
theorem Course.pull (h : Course definition levels gathered size r none [] [] []) (hnew : pair ∉ r.processed)
    (hfetching : r.failed = false → pair ∈ fetching) (hpair : ∀ other ∈ fetching, other = pair) :
    Course definition levels gathered size { r with processed := r.processed ++ [pair] } fetching [] [] [] := by
  refine { h with
    tracks := { h.tracks with }
    fetched_processed := fun other hm => List.mem_append_left _ (h.fetched_processed other hm)
    fetching_new := ?_
    all_fetched := ?_ }
  · intro other hm hfetched
    rw [hpair other hm] at hfetched
    exact hnew (h.fetched_processed pair hfetched)
  · intro hnot other hm
    rcases List.mem_append.mp hm with hm | hm
    · exact .inl ((h.all_fetched hnot other hm).resolve_right (Option.not_mem_none _))
    · rw [List.mem_singleton.mp hm]
      exact .inr (hfetching hnot)

/-- The sessions of a next node that are ready are looked up. -/
theorem Course.getReadySessions {nextNode : String}
    (h : Course definition levels gathered size r none [] (nextNode :: nextNodes) [])
    (hready : ready.Perm (Node.getReadySessions r.nodeSessions nextNode)) :
    Course definition levels gathered size r none [] nextNodes ready := by
  have hmem : ∀ pair, pair ∈ ready ↔ ∃ session, (pair, session) ∈ r.nodeSessions ∧ pair.1 = nextNode ∧
      session.isUsed = false ∧ session.remainingDependencies = 0 := by
    intro pair
    rw [hready.mem_iff]
    simp [Node.getReadySessions, NodeSession.isReady]
  obtain ⟨hnew, hnodup⟩ := List.nodup_cons.mp h.nextNodes_nodup
  have hkeys : (Node.getReadySessions r.nodeSessions nextNode).Nodup :=
    h.tracks.keys.sublist (List.filter_sublist.map Prod.fst)
  refine { h with
    pending_next := fun _ hm => absurd hm List.not_mem_nil
    nextNodes_nodup := hnodup
    nextNodes_fed := fun other hm => h.nextNodes_fed other (List.mem_cons_of_mem _ hm)
    nextNodes_open := fun pair hm hnext => h.nextNodes_open pair hm (List.mem_cons_of_mem _ hnext)
    used := fun pair hm hnext => h.used pair hm (hnext.imp_right (List.mem_cons_of_mem _))
    ready_nodup := hready.nodup_iff.mpr hkeys
    ready_new := ?_
    ready_behind := ?_
    ready_satisfied := ?_
    all_executed := ?_ }
  · intro pair hm hexecuted
    obtain ⟨session, hsession, hname, hunused, _⟩ := (hmem pair).mp hm
    have hnext : pair.1 ∈ nextNode :: nextNodes := hname ▸ List.mem_cons_self
    have hused := h.used pair hexecuted (.inr hnext) (h.nextNodes_fed pair.1 hnext)
      (h.nextNodes_open pair hexecuted hnext) session hsession
    rw [hunused] at hused
    cases hused
  · intro pair hm
    obtain ⟨_, _, hname, _⟩ := (hmem pair).mp hm
    rw [hname]
    exact hnew
  · intro pair hm
    obtain ⟨session, hsession, _, _, hzero⟩ := (hmem pair).mp hm
    exact ⟨session, hsession, hzero⟩
  · intro hnot pair session hsession hzero
    rcases h.all_executed hnot pair session hsession hzero with hexecuted | hnext | hm
    · exact .inl hexecuted
    · rcases List.mem_cons.mp hnext with hname | hnext
      · cases hused : session.isUsed with
        | true => exact .inl (h.tracks.used pair session hsession hused)
        | false => exact .inr (.inr ((hmem pair).mpr ⟨session, hsession, hname, hused, hzero⟩))
      · exact .inr (.inl hnext)
    · exact absurd hm List.not_mem_nil

end Moves

section Executed

/-- A session that has received all is executed. -/
theorem Course.call (h : Course definition levels gathered size r none [] nextNodes ready)
    (hsession : IsSession definition levels size pair node metadata index)
    (hall : (received definition r.handedOver pair).length = total definition gathered size pair.1)
    (hbehind : pair.1 ∉ nextNodes) {used failed : Bool}
    (hused : used = true ∨ failed = true ∨ definition.connectedTo pair.1 = [] ∨ kindOf definition pair.1 = .EXIT)
    {rest : List NodeSessionKeyPair} (hrest : ∀ other ∈ ready, other = pair ∨ other ∈ rest)
    (hsublist : rest.Sublist ready) (hpair : pair ∉ rest) :
    Course definition levels gathered size { r with
      nodeSessions := if used then r.nodeSessions.alter pair NodeSession.getInputs else r.nodeSessions
      executed := r.executed ++ [pair]
      failed := r.failed || failed } none [] nextNodes rest := by
  have hself : pair ∈ r.executed ++ [pair] := List.mem_append_right _ (List.mem_singleton.mpr rfl)
  have hlook : ∀ other session, (other, session) ∈
      (if used then r.nodeSessions.alter pair NodeSession.getInputs else r.nodeSessions) →
      ∃ old, (other, old) ∈ r.nodeSessions ∧ session.remainingDependencies = old.remainingDependencies ∧
        (old.isUsed → session.isUsed) ∧ (other = pair → used = true → session.isUsed) := by
    intro other session hm
    split at hm
    next =>
      obtain ⟨old, hold, rfl⟩ := NodeSessions.mem_alter.mp hm
      refine ⟨old, hold, ?_⟩
      split
      next => exact ⟨rfl, fun _ => rfl, fun _ _ => rfl⟩
      next hne => exact ⟨rfl, id, fun heq => absurd heq hne⟩
    next hunused => exact ⟨session, hm, rfl, id, fun _ hused => absurd hused hunused⟩
  have hback : ∀ other session, (other, session) ∈ r.nodeSessions → ∃ new, (other, new) ∈
      (if used then r.nodeSessions.alter pair NodeSession.getInputs else r.nodeSessions) ∧
      new.remainingDependencies = session.remainingDependencies := by
    intro other session hm
    split
    next =>
      refine ⟨_, NodeSessions.mem_alter.mpr ⟨session, hm, rfl⟩, ?_⟩
      split <;> rfl
    next => exact ⟨session, hm, rfl⟩
  have hnot : (r.failed || failed) = false → r.failed = false ∧ failed = false := by
    intro hor
    exact Bool.or_eq_false_iff.mp hor
  have htracks : Tracks definition levels gathered size { r with
      nodeSessions := if used then r.nodeSessions.alter pair NodeSession.getInputs else r.nodeSessions
      executed := r.executed ++ [pair]
      failed := r.failed || failed } := by
    have hcalled := h.tracks.call hsession hall
    cases used with
    | false => exact { hcalled with }
    | true => exact { hcalled.use hself with }
  refine { h with
    tracks := htracks
    nextNodes_open := ?_
    used := ?_
    ready_nodup := h.ready_nodup.sublist hsublist
    ready_new := ?_
    ready_behind := fun other hm => h.ready_behind other (hsublist.subset hm)
    ready_satisfied := ?_
    all_fetched := fun hor => h.all_fetched (hnot hor).1
    all_handedOver := fun hor => h.all_handedOver (hnot hor).1
    all_executed := ?_ }
  · intro other hm hnext
    rcases List.mem_append.mp hm with hm | hm
    · exact h.nextNodes_open other hm hnext
    · rw [List.mem_singleton.mp hm] at hnext
      exact absurd hnext hbehind
  · intro other hm hnext hfed hkind session hsession
    obtain ⟨old, hold, _, hkept, hnew⟩ := hlook other session hsession
    by_cases heq : other = pair
    · subst heq
      have hor := hnext.resolve_right hbehind
      rcases hused with hused | hfailed | hnil | hexit
      · exact hnew rfl hused
      · exact absurd ((hnot hor).2.symm.trans hfailed) Bool.noConfusion
      · exact absurd hnil hfed
      · exact absurd hexit hkind
    · have hm : other ∈ r.executed :=
        (List.mem_append.mp hm).resolve_right fun hm => heq (List.mem_singleton.mp hm)
      exact hkept (h.used other hm (hnext.imp_left fun hor => (hnot hor).1) hfed hkind old hold)
  · intro other hm hexecuted
    rcases List.mem_append.mp hexecuted with hexecuted | hexecuted
    · exact h.ready_new other (hsublist.subset hm) hexecuted
    · exact hpair (List.mem_singleton.mp hexecuted ▸ hm)
  · intro other hm
    obtain ⟨session, hsession, hzero⟩ := h.ready_satisfied other (hsublist.subset hm)
    obtain ⟨new, hnew, heq⟩ := hback other session hsession
    exact ⟨new, hnew, heq.trans hzero⟩
  · intro hor other session hsession hzero
    obtain ⟨old, hold, heq, _⟩ := hlook other session hsession
    rcases h.all_executed (hnot hor).1 other old hold (heq ▸ hzero) with hexecuted | hnext | hm
    · exact .inl (List.mem_append_left _ hexecuted)
    · exact .inr (.inl hnext)
    · rcases hrest other hm with rfl | hm
      · exact .inl hself
      · exact .inr (.inr hm)

end Executed

section Fetched

theorem Graph.exit_levels (hgraph : Graph definition levels gathered size)
    (hsession : IsSession definition levels size pair node metadata index) (hkind : node.kind = .EXIT) :
    pair.2 = "" ∧ metadata = {} := by
  obtain ⟨hm, hname⟩ := hsession.info
  have hlevels := hgraph.levelled.exit node hm hkind
  have heq := hsession.below.eq_below
  rw [← hname, hlevels] at heq
  have hmetadata : metadata = {} := heq
  have hkey := hsession.key
  rw [hmetadata] at hkey
  exact ⟨(Except.ok.inj hkey).symm, hmetadata⟩

theorem ResultsOf.ne_nil (hgraph : Graph definition levels gathered size) (hkind : node.kind ≠ .EXIT)
    (h : ResultsOf definition levels size pair node metadata index results) : results ≠ [] := by
  have hlength := (h.perm hgraph hkind).2.length_eq
  rw [List.length_map, RowMajor.length_indexes] at hlength
  intro hnil
  rw [hnil] at hlength
  have hpos : 0 < ((opened node).map size).prod := by
    apply List.prod_pos
    intro shards hm
    obtain ⟨name, _, rfl⟩ := List.mem_map.mp hm
    exact hgraph.positive name
  exact absurd hlength (Nat.ne_of_lt hpos)

theorem ResultsOf.nodup (hgraph : Graph definition levels gathered size) (hkind : node.kind ≠ .EXIT)
    (h : ResultsOf definition levels size pair node metadata index results) : results.Nodup := by
  obtain ⟨hnamed, hperm⟩ := h.perm hgraph hkind
  rw [hperm.nodup_iff]
  apply (RowMajor.nodup_indexes _).map_on
  intro inner hinner inner' hinner' heq
  have hbelow := h.session.below.append hnamed (RowMajor.mem_indexes hinner)
  have hbelow' := h.session.below.append hnamed (RowMajor.mem_indexes hinner')
  rw [← heq] at hbelow'
  exact List.append_cancel_left (hbelow.unique (opened_nodup hgraph h.session) hbelow')

theorem Graph.kind_of_next (hgraph : Graph definition levels gathered size)
    (hsession : IsSession definition levels size pair node metadata index) {nextNode : String}
    (hnext : nextNode ∈ getNextNodes definition pair.1) : node.kind ≠ .EXIT := by
  obtain ⟨connection, hconnection, hname⟩ := List.mem_map.mp hnext
  have hcreated := hgraph.created connection (List.mem_filter.mp hconnection).1
  rw [hname] at hcreated
  obtain ⟨node', hfound⟩ := Option.isSome_iff_exists.mp hcreated
  obtain ⟨hm, rfl⟩ := findNodeByName_mem hfound
  obtain ⟨info, hinfo, hkind⟩ := hgraph.checked.dependencies node' hm _ (mem_getNextNodes.mp hnext)
  cases hsession.found.symm.trans hinfo
  exact hkind

/-- A session is fetched, and its results are to be handed over. -/
theorem Course.fetch (h : Course definition levels gathered size r (some pair) [] [] [])
    (hgraph : Graph definition levels gathered size) (hnot : r.failed = false)
    (hprocessed : pair ∈ r.processed) (hexecuted : pair ∈ r.executed)
    (hresults : ResultsOf definition levels size pair node metadata index results) :
    Course definition levels gathered size { r with
      nodeSessions := r.nodeSessions.erase pair
      fetched := r.fetched ++ [(pair, results)] } none
      ((getNextNodes definition pair.1).flatMap fun nextNode => results.map (pair.1, nextNode, ·))
      (getNextNodes definition pair.1) [] := by
  have hnew := h.fetching_new pair rfl
  have hpending : ∀ handOver, handOver ∈ (getNextNodes definition pair.1).flatMap
      (fun nextNode => results.map (pair.1, nextNode, ·)) ↔ handOver.1 = pair.1 ∧
      handOver.2.1 ∈ getNextNodes definition pair.1 ∧ handOver.2.2 ∈ results := by
    rintro ⟨dependency, nextNode, result⟩
    simp only [List.mem_flatMap, List.mem_map, Prod.mk.injEq]
    constructor
    · rintro ⟨nextNode', hnext, result', hm, rfl, rfl, rfl⟩
      exact ⟨rfl, hnext, hm⟩
    · rintro ⟨rfl, hnext, hm⟩
      exact ⟨nextNode, hnext, result, hm, rfl, rfl, rfl⟩
  have hself : (pair, results) ∈ r.fetched ++ [(pair, results)] :=
    List.mem_append_right _ (List.mem_singleton.mpr rfl)
  have hfst : ∀ other, other ∈ (r.fetched ++ [(pair, results)]).map Prod.fst ↔
      other ∈ r.fetched.map Prod.fst ∨ other = pair := by
    intro other
    rw [List.map_append, List.mem_append, List.map_singleton, List.mem_singleton]
  have htracks : Tracks definition levels gathered size { r with
      nodeSessions := r.nodeSessions.erase pair
      fetched := r.fetched ++ [(pair, results)] } := (h.tracks.erase hexecuted).fetch hresults
  refine { h with
    tracks := htracks
    fetched_nodup := ?_
    fetched_processed := ?_
    fetching_new := fun _ hm => absurd hm (Option.not_mem_none _)
    pending_nodup := ?_
    pending_new := ?_
    pending_next := ?_
    pending_origin := ?_
    nextNodes_nodup := getNextNodes_nodup definition pair.1
    nextNodes_fed := ?_
    nextNodes_open := ?_
    used := ?_
    ready_behind := fun _ hm => absurd hm List.not_mem_nil
    ready_satisfied := fun _ hm => absurd hm List.not_mem_nil
    all_fetched := ?_
    all_handedOver := ?_
    all_executed := ?_ }
  · show ((r.fetched ++ [(pair, results)]).map Prod.fst).Nodup
    rw [List.map_append, List.nodup_append]
    refine ⟨h.fetched_nodup, List.nodup_singleton _, ?_⟩
    rintro other hm _ heq rfl
    have hpair : other = pair := List.mem_singleton.mp heq
    exact hnew (hpair ▸ hm)
  · intro other hm
    rcases (hfst other).mp hm with hm | rfl
    · exact h.fetched_processed other hm
    · exact hprocessed
  · rw [List.nodup_flatMap]
    constructor
    · intro nextNode hnext
      exact (hresults.nodup hgraph (hgraph.kind_of_next hresults.session hnext)).map
        fun result result' heq => (Prod.mk.inj (Prod.mk.inj heq).2).2
    · apply (getNextNodes_nodup definition pair.1).imp
      intro nextNode nextNode' hne handOver hm hm'
      obtain ⟨_, _, rfl⟩ := List.mem_map.mp hm
      obtain ⟨_, _, heq⟩ := List.mem_map.mp hm'
      exact hne (Prod.mk.inj (Prod.mk.inj heq).2).1.symm
  · rintro ⟨dependency, nextNode, result⟩ hm
    obtain ⟨rfl, hnext, hresult⟩ := (hpending _).mp hm
    exact h.tracks.not_handedOver hgraph (hgraph.kind_of_next hresults.session hnext) hresults hnew hresult
  · rintro ⟨dependency, nextNode, result⟩ hm
    obtain ⟨rfl, hnext, _⟩ := (hpending _).mp hm
    exact ⟨hnext, hnext⟩
  · rintro ⟨dependency, nextNode, result⟩ hm
    obtain ⟨rfl, _, hresult⟩ := (hpending _).mp hm
    exact ⟨pair, results, hself, rfl, hresult⟩
  · intro nextNode hnext hnil
    have hm := mem_getNextNodes.mp hnext
    rw [hnil] at hm
    cases hm
  · -- the exit waits for one of the results, so it has not been executed
    intro other hm hnext hkind
    have hexit := hgraph.kind_of_next hresults.session hnext
    obtain ⟨result, hresult⟩ := List.exists_mem_of_ne_nil _ (hresults.ne_nil hgraph hexit)
    obtain ⟨pair', node', metadata', index', inner, hsession', hdelivers⟩ := hresults.delivers hgraph hnext hresult
    obtain ⟨node'', metadata'', index'', hsession''⟩ := h.tracks.executed other hm
    have hname : other.1 = pair'.1 := hdelivers.node
    have hkind'' : node''.kind = .EXIT := by
      unfold kindOf at hkind
      rw [hsession''.found] at hkind
      exact hkind
    have hkind' : node'.kind = .EXIT := by
      have hfound := hsession'.found
      rw [← hname, hsession''.found] at hfound
      rw [← Option.some.inj hfound]
      exact hkind''
    have heq : other = pair' := by
      apply Prod.ext hname
      rw [(hgraph.exit_levels hsession'' hkind'').1, (hgraph.exit_levels hsession' hkind').1]
    subst heq
    exact h.tracks.not_executed hgraph hsession' hdelivers
      (h.tracks.not_handedOver hgraph hexit hresults hnew hresult) hm
  · intro other hm _ hfed hkind session hsession
    exact h.used other hm (.inl hnot) hfed hkind session (NodeSessions.mem_erase.mp hsession).1
  · intro _ other hm
    rcases h.all_fetched hnot other hm with hfetched | heq
    · exact .inl ((hfst other).mpr (.inl hfetched))
    · exact .inl ((hfst other).mpr (.inr (Option.mem_some_iff.mp heq).symm))
  · intro _ other results' hm nextNode hnext result hresult
    rcases List.mem_append.mp hm with hm | hm
    · rcases h.all_handedOver hnot other results' hm nextNode hnext result hresult with hhanded | hin
      · exact .inl hhanded
      · exact absurd hin List.not_mem_nil
    · obtain ⟨rfl, rfl⟩ := Prod.mk.inj (List.mem_singleton.mp hm)
      exact .inr ((hpending _).mpr ⟨rfl, hnext, hresult⟩)
  · intro _ other session hsession hzero
    rcases h.all_executed hnot other session (NodeSessions.mem_erase.mp hsession).1 hzero with hm | hnext | hm
    · exact .inl hm
    · exact absurd hnext List.not_mem_nil
    · exact absurd hm List.not_mem_nil

/-- A session that could not be fetched is erased. -/
theorem Course.erase (h : Course definition levels gathered size r fetching pending nextNodes [])
    (hexecuted : pair ∈ r.executed) : Course definition levels gathered size
      { r with nodeSessions := r.nodeSessions.erase pair } fetching pending nextNodes [] :=
  { h with
    tracks := h.tracks.erase hexecuted
    used := fun other hm hnext hfed hkind session hsession =>
      h.used other hm hnext hfed hkind session (NodeSessions.mem_erase.mp hsession).1
    ready_satisfied := fun _ hm => absurd hm List.not_mem_nil
    all_executed := fun hnot other session hsession =>
      h.all_executed hnot other session (NodeSessions.mem_erase.mp hsession).1 }

end Fetched

section HandedOver

theorem Course.create (h : Course definition levels gathered size r fetching pending nextNodes [])
    (hsession : IsSession definition levels size pair node metadata index) (hnext : pair.1 ∈ nextNodes)
    (hexecuted : pair ∉ r.executed) (hbound : total definition gathered size pair.1 < sessionIdWord) :
    Course definition levels gathered size { r with
      nodeSessions := if (r.nodeSessions.lookup pair).isSome then r.nodeSessions
        else r.nodeSessions ++ [(pair, { metadata := metadata
                                         remainingDependencies := total definition gathered size pair.1 })] }
      fetching pending nextNodes [] := by
  have hback : ∀ other session, (other, session) ∈ (if (r.nodeSessions.lookup pair).isSome then r.nodeSessions
      else r.nodeSessions ++ [(pair, { metadata := metadata
                                       remainingDependencies := total definition gathered size pair.1 })]) →
      (other, session) ∈ r.nodeSessions ∨ other = pair := by
    intro other session hm
    split at hm
    next => exact .inl hm
    next =>
      rcases List.mem_append.mp hm with hm | hm
      · exact .inl hm
      · exact .inr (Prod.mk.inj (List.mem_singleton.mp hm)).1
  refine { h with
    tracks := h.tracks.create hsession hexecuted hbound
    used := ?_
    ready_satisfied := fun _ hm => absurd hm List.not_mem_nil
    all_executed := ?_ }
  · intro other hm hor hfed hkind session hin
    rcases hback other session hin with hin | rfl
    · exact h.used other hm hor hfed hkind session hin
    · exact absurd hm hexecuted
  · intro hnot other session hin hzero
    rcases hback other session hin with hin | rfl
    · exact h.all_executed hnot other session hin hzero
    · exact .inr (.inl hnext)

theorem Course.notify (h : Course definition levels gathered size r fetching (handOver :: pending) nextNodes [])
    (hgraph : Graph definition levels gathered size)
    (hsession : IsSession definition levels size pair node metadata index)
    (hdelivers : Delivers definition levels gathered size handOver pair metadata inner)
    (hkey : pair ∈ r.nodeSessions.map Prod.fst) :
    Course definition levels gathered size { r with
      nodeSessions := r.nodeSessions.alter pair NodeSession.notifyFinishedDependency
      handedOver := r.handedOver ++ [handOver] } fetching pending nextNodes [] := by
  have hnew := h.pending_new handOver List.mem_cons_self
  have hexecuted := h.tracks.not_executed hgraph hsession hdelivers hnew
  have hnext : pair.1 ∈ nextNodes := hdelivers.node ▸ (h.pending_next handOver List.mem_cons_self).1
  obtain ⟨hfresh, hnodup⟩ := List.nodup_cons.mp h.pending_nodup
  refine { h with
    tracks := h.tracks.notify hgraph hsession hdelivers hkey hexecuted hnew
      (h.pending_origin handOver List.mem_cons_self)
    pending_nodup := hnodup
    pending_new := ?_
    pending_next := fun other hm => h.pending_next other (List.mem_cons_of_mem _ hm)
    pending_origin := fun other hm => h.pending_origin other (List.mem_cons_of_mem _ hm)
    used := ?_
    ready_satisfied := fun _ hm => absurd hm List.not_mem_nil
    all_handedOver := ?_
    all_executed := ?_ }
  · intro other hm hhanded
    rcases List.mem_append.mp hhanded with hhanded | hhanded
    · exact h.pending_new other (List.mem_cons_of_mem _ hm) hhanded
    · exact hfresh (List.mem_singleton.mp hhanded ▸ hm)
  · intro other hm hor hfed hkind session hin
    obtain ⟨old, hold, rfl⟩ := NodeSessions.mem_alter.mp hin
    have hne : other ≠ pair := by
      rintro rfl
      exact hexecuted hm
    rw [if_neg hne]
    exact h.used other hm hor hfed hkind old hold
  · intro hnot other results hm nextNode hnext' result hresult
    rcases h.all_handedOver hnot other results hm nextNode hnext' result hresult with hhanded | hin
    · exact .inl (List.mem_append_left _ hhanded)
    · rcases List.mem_cons.mp hin with heq | hin
      · exact .inl (List.mem_append_right _ (List.mem_singleton.mpr heq))
      · exact .inr hin
  · intro hnot other session hin hzero
    obtain ⟨old, hold, rfl⟩ := NodeSessions.mem_alter.mp hin
    by_cases heq : other = pair
    · rw [heq]
      exact .inr (.inl hnext)
    · rw [if_neg heq] at hzero
      exact h.all_executed hnot other old hold hzero

end HandedOver

end ModelServer.Pipeline
