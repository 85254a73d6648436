import ModelServer.PipelineExecution

namespace ModelServer.Pipeline

open NodeSessionMetadata PipelineDefinition

variable {ε : Type}

section Runs

variable (definition : PipelineDefinition)

/-- A session that is executed for the first time is counted by another text than the sessions before it, and the
counter of a session holds all that the session waits for. -/
def Location.Distinguishes (executed : List NodeSessionKeyPair) : Location ε → Prop
  | .scheduling _ (pair :: _) _ => ∀ other ∈ executed, sessionName other = sessionName pair → other = pair
  | .feeding _ _ ((nextNode, metadata) :: _) => inputsCount definition nextNode metadata < sessionIdWord
  | _ => True

instance (executed : List NodeSessionKeyPair) : (location : Location ε) →
    Decidable (location.Distinguishes definition executed)
  | .scheduling _ (pair :: _) _ =>
    inferInstanceAs (Decidable (∀ other ∈ executed, sessionName other = sessionName pair → other = pair))
  | .feeding _ _ ((nextNode, metadata) :: _) =>
    inferInstanceAs (Decidable (inputsCount definition nextNode metadata < sessionIdWord))
  | .pulling | .fetching _ | .feeding _ _ [] | .scheduling _ [] _ | .retrying _ _ | .triggering _ _ | .disarming _
  | .retryingAll _ | .left _ => isTrue trivial

def Distinguishes (s : State ε) : Prop := s.location.Distinguishes definition s.history.executed

instance (s : State ε) : Decidable (Distinguishes definition s) :=
  inferInstanceAs (Decidable (s.location.Distinguishes definition s.history.executed))

/-- A run through states from which steps are allowed. -/
def run (allowed : State ε → Prop) [DecidablePred allowed] (s : State ε) : List (Action ε) → Option (State ε)
  | [] => some s
  | action :: actions =>
    if allowed s then (step definition s action).bind fun t => run allowed t actions else none

end Runs

/-- What is to hold of a run: no session is started twice, and when the loop is left every session that was executed is
processed or disarmed, no inference runs, the status is the first error and without one the exit is executed and
fetched. -/
structure Accounted (exit : String) (s : State ε) : Prop where
  started : s.history.started.Nodup
  finished : ∀ status, s.location = .left status →
    (∀ pair ∈ s.history.executed, pair ∈ s.history.processed ∨ pair ∈ s.history.disarmed) ∧ s.running = []
  exited : s.location = .left none →
    (exit, "") ∈ s.history.executed ∧ (exit, "") ∈ s.history.fetched.map Prod.fst
  status : ∀ status, s.location = .left status → status = s.history.errors.head?

/-- The connections are those of nodes, so that the nodes of a pipeline can be created. -/
def Created (definition : PipelineDefinition) : Prop :=
  ∀ connection ∈ definition.connections, (definition.findNodeByName connection.1).isSome

variable {definition : PipelineDefinition} {levels gathered : String → List String} {size : String → Nat}
  {s t : State ε} {action : Action ε}

theorem run_induction {allowed : State ε → Prop} [DecidablePred allowed] {P : State ε → Prop}
    (hstep : ∀ s action t, P s → allowed s → step definition s action = some t → P t) {actions : List (Action ε)}
    (hstart : P s) (hrun : run definition allowed s actions = some t) : P t := by
  induction actions generalizing s with
  | nil =>
    cases hrun
    exact hstart
  | cons action actions ih =>
    rw [run] at hrun
    split at hrun
    next hallowed =>
      obtain ⟨u, hone, hrest⟩ := Option.bind_eq_some_iff.mp hrun
      exact ih (hstep s action u hstart hallowed hone) hrest
    next => cases hrun

section Steps

theorem Follows.step (h : Follows definition levels gathered size s)
    (hgraph : Graph definition levels gathered size) (hallowed : Distinguishes definition s)
    (hstep : step definition s action = some t) (hagrees : Agrees definition size t) :
    Follows definition levels gathered size t := by
  cases action with
  | complete pair => exact h.complete hstep
  | tryPull =>
    simp only [Pipeline.step] at hstep
    split at hstep
    next hlocation =>
      cases hstep
      exact h.tryPull hlocation
    next => cases hstep
  | fetchResults outcome =>
    simp only [Pipeline.step] at hstep
    split at hstep
    next hlocation => exact h.fetchResults hgraph hlocation hstep hagrees
    next => cases hstep
  | setInputs outcome =>
    simp only [Pipeline.step] at hstep
    split at hstep
    next hlocation =>
      unfold Distinguishes at hallowed
      rw [hlocation] at hallowed
      exact h.setInputs hgraph hlocation hallowed hstep
    next => cases hstep
  | getReadySessions readySessions =>
    have haccounts := h.accounts.step hstep fun _ _ _ _ hlocation => by
      have hcourse := h.course
      rw [hlocation] at hcourse
      exact hcourse.ready_new _ List.mem_cons_self
    simp only [Pipeline.step] at hstep
    split at hstep
    next hlocation =>
      split at hstep
      next hready =>
        cases hstep
        have hcourse := h.course
        rw [hlocation] at hcourse
        exact ⟨haccounts, hcourse.getReadySessions hready⟩
      next => cases hstep
    next => cases hstep
  | execute outcome =>
    have haccounts := h.accounts.step hstep fun _ _ _ _ hlocation => by
      have hcourse := h.course
      rw [hlocation] at hcourse
      exact hcourse.ready_new _ List.mem_cons_self
    have hcourse := h.course
    simp only [Pipeline.step] at hstep
    split at hstep
    next hlocation => exact h.schedule hgraph hlocation hstep
    next hlocation =>
      rw [hlocation] at hcourse
      obtain ⟨hretried, i, hnext⟩ := hcourse.retry hgraph h.deferred hstep
      refine ⟨haccounts, ?_⟩
      rw [hnext]
      exact hretried
    next hlocation =>
      rw [hlocation] at hcourse
      obtain ⟨hretried, i, hnext⟩ := hcourse.retry hgraph h.deferred hstep
      refine ⟨haccounts, ?_⟩
      rw [hnext]
      exact hretried
    next => cases hstep
  | tryDisarm succeeded =>
    simp only [Pipeline.step] at hstep
    split at hstep
    next hlocation => exact h.tryDisarm hlocation hstep
    next => cases hstep
  | advance => exact h.advance hstep

theorem State.retry_history {next : Nat → Location ε} {it : Nat} {outcome : Outcome ε}
    (h : s.retry definition next it outcome = some t) : ∃ pair ∈ s.deferredNodeSessions,
      t.history.executed = s.history.executed ++ [pair] ∧ t.history.fetched = s.history.fetched := by
  unfold retry at h
  split at h
  next => cases h
  next pair hpair =>
    split at h
    next => cases h
    next u hexecute =>
      obtain ⟨_, hrecords, _⟩ := State.execute_records hexecute
      have hexecuted : u.history.executed = s.history.executed ++ [pair] := congrArg Records.executed hrecords
      have hfetched : u.history.fetched = s.history.fetched := congrArg Records.fetched hrecords
      split at h <;> cases h <;> exact ⟨pair, List.mem_of_getElem? hpair, hexecuted, hfetched⟩

/-- What a step adds to the sessions that were executed and fetched. -/
theorem step_history (hstep : step definition s action = some t) :
    (t.history.executed = s.history.executed ∧ t.history.fetched = s.history.fetched) ∨
    (∃ pair, t.history.executed = s.history.executed ++ [pair] ∧ t.history.fetched = s.history.fetched ∧
      (pair ∈ s.deferredNodeSessions ∨ ∃ nextNodes readySessions tmpDeferred,
        s.location = .scheduling nextNodes (pair :: readySessions) tmpDeferred)) ∨
    (∃ finished results node session sessions, t.history.executed = s.history.executed ∧
      t.history.fetched = s.history.fetched ++ [(finished, results)] ∧ s.location = .fetching finished ∧
      definition.findNodeByName finished.1 = some node ∧ s.nodeSessions.lookup finished = some session ∧
      Node.resultSessions node session.metadata results.length = .ok sessions) := by
  cases action with
  | complete pair =>
    simp only [step, State.complete] at hstep
    split at hstep <;> cases hstep
    exact .inl ⟨rfl, rfl⟩
  | tryPull =>
    simp only [step] at hstep
    split at hstep <;> cases hstep
    left
    unfold State.tryPull
    split
    next =>
      simp only
      split <;> exact ⟨rfl, rfl⟩
    next => split <;> exact ⟨rfl, rfl⟩
  | fetchResults outcome =>
    simp only [step] at hstep
    split at hstep
    next finished hlocation =>
      cases outcome with
      | error status =>
        cases hstep
        exact .inl ⟨rfl, rfl⟩
      | ok results =>
        simp only [State.fetchResults] at hstep
        split at hstep
        next node session hfound hlookup =>
          split at hstep
          next => cases hstep
          next sessions hsessions =>
            split at hstep <;> cases hstep
            exact .inr (.inr ⟨finished, results, node, session, sessions, rfl, rfl, hlocation, hfound, hlookup,
              hsessions⟩)
        next => cases hstep
    next => cases hstep
  | setInputs outcome =>
    simp only [step] at hstep
    split at hstep
    next =>
      left
      cases outcome with
      | ok =>
        simp only [State.setInputs] at hstep
        split at hstep <;> cases hstep
        exact ⟨rfl, rfl⟩
      | failed status counted =>
        simp only [State.setInputs] at hstep
        split at hstep <;> cases hstep
        · cases counted <;> exact ⟨rfl, rfl⟩
        · exact ⟨rfl, rfl⟩
    next => cases hstep
  | getReadySessions readySessions =>
    simp only [step] at hstep
    split at hstep
    next =>
      split at hstep <;> cases hstep
      exact .inl ⟨rfl, rfl⟩
    next => cases hstep
  | execute outcome =>
    simp only [step] at hstep
    split at hstep
    next nextNodes pair readySessions tmpDeferred hlocation =>
      simp only [State.schedule] at hstep
      split at hstep
      next => cases hstep
      next u hexecute =>
        obtain ⟨_, hrecords, _⟩ := State.execute_records hexecute
        cases hstep
        exact .inr (.inl ⟨pair, congrArg Records.executed hrecords, congrArg Records.fetched hrecords,
          .inr ⟨nextNodes, readySessions, tmpDeferred, hlocation⟩⟩)
    next =>
      obtain ⟨pair, hpair, hexecuted, hfetched⟩ := State.retry_history hstep
      exact .inr (.inl ⟨pair, hexecuted, hfetched, .inl hpair⟩)
    next =>
      obtain ⟨pair, hpair, hexecuted, hfetched⟩ := State.retry_history hstep
      exact .inr (.inl ⟨pair, hexecuted, hfetched, .inl hpair⟩)
    next => cases hstep
  | tryDisarm succeeded =>
    simp only [step] at hstep
    split at hstep
    next =>
      left
      unfold State.tryDisarm at hstep
      split at hstep
      next => cases hstep
      next => split at hstep <;> cases hstep <;> exact ⟨rfl, rfl⟩
    next => cases hstep
  | advance =>
    left
    unfold step State.advance at hstep
    simp only at hstep
    split at hstep
    next =>
      cases hstep
      exact ⟨rfl, rfl⟩
    next =>
      cases hstep
      exact ⟨rfl, rfl⟩
    next => split at hstep <;> cases hstep <;> exact ⟨rfl, rfl⟩
    next =>
      split at hstep
      next =>
        cases hstep
        split <;> exact ⟨rfl, rfl⟩
      next => cases hstep
    next =>
      split at hstep <;> cases hstep
      exact ⟨rfl, rfl⟩
    next => cases hstep

end Steps

section Initial

theorem Follows.initial (hgraph : Graph definition levels gathered size) {entry : NodeInfo}
    (hentry : entry ∈ definition.nodeInfos) (hkind : entry.kind = .ENTRY) :
    Follows definition levels gathered size (Pipeline.initial definition entry.nodeName : State ε) := by
  obtain ⟨hlevels, hgathered, hnone⟩ := hgraph.levelled.entry entry hentry hkind
  have hsession : IsSession definition levels size (entry.nodeName, "") entry {} [] := by
    refine ⟨hgraph.checked.find hentry, ?_, rfl⟩
    show Below size (levels entry.nodeName) {} []
    rw [hlevels]
    exact ⟨fun _ hm => absurd hm List.not_mem_nil, .nil, rfl⟩
  have htotal : total definition gathered size entry.nodeName = 0 := by
    unfold total
    rw [hnone, List.length_nil, Nat.zero_mul]
  have hcount : (definition.connectedTo entry.nodeName).length = 0 := by
    rw [hnone]
    rfl
  have hpair : ∀ {P : NodeSessionKeyPair → NodeSession → Prop},
      P (entry.nodeName, "") { metadata := {}, remainingDependencies := 0 } →
      ∀ pair session, (pair, session) ∈ (Pipeline.initial definition entry.nodeName : State ε).records.nodeSessions →
        P pair session := by
    intro P hP pair session hm
    have heq : (Pipeline.initial definition entry.nodeName : State ε).records.nodeSessions =
        [((entry.nodeName, ""), { metadata := {}, remainingDependencies := 0 })] := by
      show [((entry.nodeName, ""), NodeSession.create {} (definition.connectedTo entry.nodeName).length ⟨[], []⟩)] = _
      rw [hcount]
      rfl
    rw [heq] at hm
    obtain ⟨rfl, rfl⟩ := Prod.mk.inj (List.mem_singleton.mp hm)
    exact hP
  have hself : ∀ {P : NodeSessionKeyPair → Prop}, P (entry.nodeName, "") →
      ∀ pair ∈ (Pipeline.initial definition entry.nodeName : State ε).records.executed, P pair := by
    intro P hP pair hm
    rw [List.mem_singleton.mp hm]
    exact hP
  have hnil : ∀ {α : Type} {P : α → Prop}, ∀ x ∈ ([] : List α), P x := fun _ hm => absurd hm List.not_mem_nil
  refine ⟨Accounts.initial definition entry.nodeName, ⟨⟨List.nodup_singleton _, ?_, ?_, ?_, ?_, ?_, ?_, hnil,
    List.nodup_nil, hnil, hnil, ?_⟩, List.nodup_nil, hnil, fun _ hm => absurd hm (Option.not_mem_none _), List.nodup_nil,
    hnil, hnil, hnil, List.nodup_nil, hnil, fun _ _ hm => absurd hm List.not_mem_nil, ?_, List.nodup_nil, hnil, hnil, hnil,
    fun _ => hnil, ?_, ?_⟩⟩
  · exact hpair ⟨entry, [], hsession⟩
  · exact hpair htotal.symm
  · apply hpair
    rw [htotal]
    decide
  · exact hpair fun hused => Bool.noConfusion hused
  · exact hself ⟨entry, {}, [], hsession⟩
  · exact hself htotal.symm
  · exact fun _ _ hm => absurd hm List.not_mem_nil
  · exact hself fun _ hfed => absurd hnone hfed
  · exact fun _ _ _ hm => absurd hm List.not_mem_nil
  · exact fun _ => hpair fun _ => .inl (List.mem_singleton.mpr rfl)

end Initial

section Sizes

variable {pair pair' : NodeSessionKeyPair} {node node' : NodeInfo} {metadata metadata' : NodeSessionMetadata}
  {index index' : List Nat}

/-- A demultiplexer whose size depends on the request has one session. -/
theorem Graph.dynamic_session (hgraph : Graph definition levels gathered size)
    (h : IsSession definition levels size pair node metadata index)
    (h' : IsSession definition levels size pair' node' metadata' index') (hsame : pair.1 = pair'.1)
    (hdynamic : node.demultiplyCount = some (-1)) : pair = pair' := by
  obtain ⟨hm, hname⟩ := h.info
  have hlevels : levels pair.1 = [] := by
    rw [← hname]
    exact hgraph.levelled.dynamic hgraph.checked hm hdynamic
  have hbelow := h.below.eq_below
  have hbelow' := h'.below.eq_below
  rw [hlevels] at hbelow
  rw [← hsame, hlevels] at hbelow'
  have hmetadata : metadata = metadata' := hbelow.trans hbelow'.symm
  apply Prod.ext hsame
  have hkey := h.key
  rw [hmetadata, h'.key] at hkey
  exact (Except.ok.inj hkey).symm

/-- Sizes that agree with the results that were fetched can be extended to the next results. -/
theorem Follows.exists_agrees (h : Follows definition levels gathered size s)
    (hgraph : Graph definition levels gathered size) (hagrees : Agrees definition size s)
    (hstep : Pipeline.step definition s action = some t) :
    ∃ size', (∀ name, 0 < size' name) ∧ Agrees definition size' t := by
  rcases step_history hstep with ⟨_, hsame⟩ | ⟨_, _, hsame, _⟩ |
    ⟨finished, results, node, session, sessions, _, hfetched, hlocation, hfound, hlookup, hsessions⟩
  · refine ⟨size, hgraph.positive, ?_⟩
    unfold Agrees
    rw [hsame]
    exact hagrees
  · refine ⟨size, hgraph.positive, ?_⟩
    unfold Agrees
    rw [hsame]
    exact hagrees
  · obtain ⟨_, hname⟩ := findNodeByName_mem hfound
    have hcourse := h.course
    rw [hlocation] at hcourse
    obtain ⟨node', index, hsession⟩ := hcourse.tracks.sessions finished session (mem_of_lookup hlookup)
    have hextend : ∀ size', (∀ pair results, (pair, results) ∈ s.history.fetched → ∀ node,
        definition.findNodeByName pair.1 = some node → node.kind ≠ .EXIT → node.demultiplyCount.isSome →
        results.length = size' node.nodeName) →
        (node.kind ≠ .EXIT → node.demultiplyCount.isSome → results.length = size' node.nodeName) →
        Agrees definition size' t := by
      intro size' hold hnew other results' hm info hinfo hkind hsome
      rw [hfetched] at hm
      rcases List.mem_append.mp hm with hm | hm
      · exact hold other results' hm info hinfo hkind hsome
      · obtain ⟨rfl, rfl⟩ := Prod.mk.inj (List.mem_singleton.mp hm)
        cases hfound.symm.trans hinfo
        exact hnew hkind hsome
    by_cases hkind : node.kind = .EXIT
    · exact ⟨size, hgraph.positive, hextend size hagrees fun hne => absurd hkind hne⟩
    cases hcount : node.demultiplyCount with
    | none =>
      refine ⟨size, hgraph.positive, hextend size hagrees fun _ hsome => ?_⟩
      rw [hcount] at hsome
      cases hsome
    | some count =>
      obtain ⟨hpos, hshards⟩ := resultSessions_shards hkind hcount hsessions
      by_cases hearlier : ∃ other results', (other, results') ∈ s.history.fetched ∧ other.1 = finished.1
      · -- the node has been fetched before, so that its size is fixed
        obtain ⟨other, results', hm, hsame⟩ := hearlier
        refine ⟨size, hgraph.positive, hextend size hagrees fun _ _ => ?_⟩
        obtain ⟨node'', metadata', index', hresults⟩ := hcourse.tracks.results other results' hm
        have hnode : node = node'' := by
          have hother := hresults.session.found
          rw [hsame, hfound] at hother
          exact Option.some.inj hother
        subst hnode
        have hsize := hagrees other results' hm node hresults.session.found hkind (by rw [hcount]; rfl)
        obtain ⟨sessions', hsessions', _⟩ := hresults.sessions
        obtain ⟨_, hshards'⟩ := resultSessions_shards hkind hcount hsessions'
        have hfixed : count ≠ -1 := by
          rintro rfl
          have heq := hgraph.dynamic_session hresults.session hsession hsame hcount
          apply hcourse.fetching_new finished rfl
          rw [← heq]
          exact List.mem_map.mpr ⟨(other, results'), hm, rfl⟩
        rw [← hsize]
        have hlength : (results.length : Int) = results'.length :=
          (hshards.resolve_left hfixed).trans (hshards'.resolve_left hfixed).symm
        exact Int.ofNat.inj hlength
      · refine ⟨Function.update size node.nodeName results.length, ?_, ?_⟩
        · intro name
          by_cases heq : name = node.nodeName
          · rw [heq, Function.update_self]
            exact hpos
          · rw [Function.update_of_ne heq]
            exact hgraph.positive name
        · apply hextend
          · intro other results' hm info hinfo hinfoKind hsome
            have hne : info.nodeName ≠ node.nodeName := by
              intro heq
              apply hearlier
              refine ⟨other, results', hm, ?_⟩
              rw [← (findNodeByName_mem hinfo).2, heq, hname]
            rw [Function.update_of_ne hne]
            exact hagrees other results' hm info hinfo hinfoKind hsome
          · intro _ _
            rw [Function.update_self]

end Sizes

section Completion

variable {order : List String} {exit node info : NodeInfo} {r : Records} {pair : NodeSessionKeyPair}
  {metadata : NodeSessionMetadata} {index : List Nat}

/-- All sessions of a node have been executed and fetched, and the levels that it opens and gathers have names. -/
structure Covered (definition : PipelineDefinition) (levels gathered : String → List String) (size : String → Nat)
    (r : Records) (node : NodeInfo) : Prop where
  named : ∀ name ∈ levels node.nodeName ++ gathered node.nodeName, name ≠ ""
  done : ∀ pair metadata index, IsSession definition levels size pair node metadata index →
    pair ∈ r.executed ∧ pair ∈ r.fetched.map Prod.fst

theorem Graph.exists_session (hgraph : Graph definition levels gathered size) (hm : node ∈ definition.nodeInfos)
    (hnamed : ∀ name ∈ levels node.nodeName, name ≠ "") :
    ∃ key metadata index, IsSession definition levels size (node.nodeName, key) node metadata index := by
  have hwithin : List.Forall₂ (· < ·) ((levels node.nodeName).map fun _ => 0) ((levels node.nodeName).map size) := by
    rw [List.forall₂_map_left_iff, List.forall₂_map_right_iff, List.forall₂_same]
    exact fun name _ => hgraph.positive name
  have hbelow : Below size (levels node.nodeName) _ _ := ⟨hnamed, hwithin, rfl⟩
  have hnodup := hgraph.levelled.nodup node hm
  rw [List.append_assoc] at hnodup
  obtain ⟨key, hkey⟩ := hbelow.exists_key (List.nodup_append.mp hnodup).1
  exact ⟨key, _, _, hgraph.checked.find hm, hbelow, hkey⟩

/-- The levels that a node gets from a dependency that is covered have names. -/
theorem Covered.opened (h : Covered definition levels gathered size r info)
    (htracks : Tracks definition levels gathered size r) (hgraph : Graph definition levels gathered size)
    (hm : info ∈ definition.nodeInfos) (hkind : info.kind ≠ .EXIT) :
    ∀ name ∈ levels info.nodeName ++ opened info, name ≠ "" := by
  have hlevels : ∀ name ∈ levels info.nodeName, name ≠ "" := fun name hin => h.named name (List.mem_append_left _ hin)
  obtain ⟨key, metadata, index, hsession⟩ := hgraph.exists_session hm hlevels
  obtain ⟨⟨_, results⟩, hfetched, rfl⟩ := List.mem_map.mp (h.done _ metadata index hsession).2
  obtain ⟨info', metadata', index', hresults⟩ := htracks.results _ results hfetched
  have hinfo : info' = info := Option.some.inj (hresults.session.found.symm.trans hsession.found)
  subst hinfo
  intro name hin
  rcases List.mem_append.mp hin with hin | hin
  · exact hlevels name hin
  · exact (hresults.perm hgraph hkind).1 name hin

/-- What a dependency that is covered owes to a session has been handed over. -/
theorem Covered.handedOver (h : Covered definition levels gathered size r info)
    (hcourse : Course definition levels gathered size r none [] [] []) (hgraph : Graph definition levels gathered size)
    (hnot : r.failed = false) (hsession : IsSession definition levels size pair node metadata index)
    (hinfo : definition.findNodeByName info.nodeName = some info) (hkind : info.kind ≠ .EXIT)
    (hconnected : info.nodeName ∈ definition.connectedTo pair.1)
    (hopened : levels info.nodeName ++ Pipeline.opened info = levels pair.1 ++ gathered pair.1)
    (hnamed : ∀ name ∈ gathered pair.1, name ≠ "") {inner : List Nat}
    (hinner : List.Forall₂ (· < ·) inner ((gathered pair.1).map size)) :
    (info.nodeName, pair.1, below metadata (sized size (gathered pair.1)) inner) ∈ r.handedOver := by
  have hbelow := hsession.below.append hnamed hinner
  rw [← hopened] at hbelow
  obtain ⟨outer, inner', _, houter, hinner', heq⟩ := hbelow.split
  have hm := (findNodeByName_mem hinfo).1
  have hnodup := hgraph.levelled.nodup info hm
  rw [List.append_assoc] at hnodup
  obtain ⟨key, hkey⟩ := houter.exists_key (List.nodup_append.mp hnodup).1
  have hsource : IsSession definition levels size (info.nodeName, key) info _ outer := ⟨hinfo, houter, hkey⟩
  obtain ⟨⟨_, results⟩, hfetched, hpair⟩ := List.mem_map.mp (h.done _ _ outer hsource).2
  have hpair' : _ = (info.nodeName, key) := hpair
  subst hpair'
  obtain ⟨info', metadata', index', hresults⟩ := hcourse.tracks.results _ results hfetched
  have hsame : info' = info := Option.some.inj (hresults.session.found.symm.trans hinfo)
  subst hsame
  have hmetadata := hresults.session.unique hgraph hsource
  have hresult : below metadata (sized size (gathered pair.1)) inner ∈ results := by
    rw [hresults.mem_iff hgraph hkind]
    refine ⟨inner', hinner', ?_⟩
    rw [heq, hmetadata]
  have hnext : pair.1 ∈ getNextNodes definition info'.nodeName := mem_getNextNodes.mpr hconnected
  exact (hcourse.all_handedOver hnot _ results hfetched pair.1 hnext _ hresult).resolve_right List.not_mem_nil

/-- A session that has been handed over all that it waits for has been executed. -/
theorem Course.executed_of_received (h : Course definition levels gathered size r none [] [] [])
    (hgraph : Graph definition levels gathered size) (hnot : r.failed = false)
    (hsession : IsSession definition levels size pair node metadata index)
    (hnamed : ∀ name ∈ gathered pair.1, name ≠ "") (hfed : definition.connectedTo pair.1 ≠ [])
    (hall : ∀ handOver ∈ expected definition gathered size pair.1 metadata,
      handOver ∈ received definition r.handedOver pair) : pair ∈ r.executed := by
  have hpos : 0 < total definition gathered size pair.1 := by
    apply Nat.mul_pos (List.length_pos_iff.mpr hfed)
    apply List.prod_pos
    intro shards hm
    obtain ⟨name, _, rfl⟩ := List.mem_map.mp hm
    exact hgraph.positive name
  have hlength := length_expected definition gathered size pair.1 metadata
  obtain ⟨handOver, hin⟩ := List.exists_mem_of_ne_nil (expected definition gathered size pair.1 metadata) (by
    intro hnil
    rw [hnil] at hlength
    exact absurd hlength (Nat.ne_of_lt hpos))
  obtain ⟨hhanded, htarget⟩ := mem_received.mp (hall handOver hin)
  have hkept := h.tracks.kept handOver hhanded
  rw [htarget] at hkept
  rcases hkept with hkey | hexecuted
  · obtain ⟨⟨pair', session⟩, hsessions, hpair⟩ := List.mem_map.mp hkey
    obtain rfl : pair' = pair := hpair
    have hcounted := h.tracks.counted pair' session hsessions
    have hle := (List.subperm_of_subset (expected_nodup hgraph hsession hnamed) hall).length_le
    rw [hlength] at hle
    have hzero : session.remainingDependencies = 0 := by omega
    rcases h.all_executed hnot pair' session hsessions hzero with hexecuted | hnext | hready
    · exact hexecuted
    · exact absurd hnext List.not_mem_nil
    · exact absurd hready List.not_mem_nil
  · exact hexecuted

/-- When all that was executed is fetched and handed over, all nodes are covered, each after its dependencies. -/
theorem Course.covered (h : Course definition levels gathered size r none [] [] [])
    (hgraph : Graph definition levels gathered size) (hacyclic : Acyclic definition exit.nodeName order)
    (hfed : Fed definition)
    (hentry : ∀ node ∈ definition.nodeInfos, node.kind = .ENTRY → (node.nodeName, "") ∈ r.executed)
    (hnot : r.failed = false) (hprocessed : ∀ pair ∈ r.executed, pair ∈ r.processed)
    (hm : node ∈ definition.nodeInfos) : Covered definition levels gathered size r node := by
  have hfetched : ∀ pair ∈ r.executed, pair ∈ r.executed ∧ pair ∈ r.fetched.map Prod.fst := fun pair hexecuted =>
    ⟨hexecuted, (h.all_fetched hnot pair (hprocessed pair hexecuted)).resolve_right (Option.not_mem_none _)⟩
  obtain ⟨rank, hrank⟩ : ∃ rank, rank = DependencyOrder.rank order node.nodeName := ⟨_, rfl⟩
  induction rank using Nat.strong_induction_on generalizing node with
  | _ rank ih =>
    by_cases hkind : node.kind = .ENTRY
    · obtain ⟨hlevels, hgathered, _⟩ := hgraph.levelled.entry node hm hkind
      refine ⟨?_, ?_⟩
      · rw [hlevels, hgathered]
        exact fun _ hin => absurd hin List.not_mem_nil
      · intro pair metadata index hsession
        obtain ⟨_, hname⟩ := hsession.info
        have hbelow := hsession.below.eq_below
        rw [← hname, hlevels] at hbelow
        have hkey := hsession.key
        rw [hbelow] at hkey
        have heq : pair = (node.nodeName, "") := Prod.ext hname.symm (Except.ok.inj hkey).symm
        rw [heq]
        exact hfetched _ (hentry node hm hkind)
    · have hconnected := hfed node hm hkind
      have hdependency : ∀ dependency ∈ definition.connectedTo node.nodeName, ∃ info,
          definition.findNodeByName info.nodeName = some info ∧ info.nodeName = dependency ∧ info.kind ≠ .EXIT ∧
          levels info.nodeName ++ opened info = levels node.nodeName ++ gathered node.nodeName ∧
          Covered definition levels gathered size r info := by
        intro dependency hin
        obtain ⟨info, hinfo, hinfoKind⟩ := hgraph.checked.dependencies node hm dependency hin
        obtain ⟨hinfoMem, rfl⟩ := findNodeByName_mem hinfo
        refine ⟨info, hinfo, rfl, hinfoKind, hgraph.levelled.edges node hm info hinfo hin, ?_⟩
        exact ih _ (hrank ▸ hacyclic.ordered.rank_lt (hacyclic.names node hm).1 hin) hinfoMem rfl
      have hnamed : ∀ name ∈ levels node.nodeName ++ gathered node.nodeName, name ≠ "" := by
        obtain ⟨dependency, hin⟩ := List.exists_mem_of_ne_nil _ hconnected
        obtain ⟨info, hinfo, _, hinfoKind, hopened, hcovered⟩ := hdependency dependency hin
        rw [← hopened]
        exact hcovered.opened h.tracks hgraph (findNodeByName_mem hinfo).1 hinfoKind
      refine ⟨hnamed, fun pair metadata index hsession => hfetched pair ?_⟩
      obtain ⟨_, hname⟩ := hsession.info
      rw [hname] at hconnected hdependency hnamed
      have hgatheredNamed : ∀ name ∈ gathered pair.1, name ≠ "" := fun name hin =>
        hnamed name (List.mem_append_right _ hin)
      apply h.executed_of_received hgraph hnot hsession hgatheredNamed hconnected
      intro handOver hexpected
      obtain ⟨dependency, hin, hrest⟩ := List.mem_flatMap.mp hexpected
      obtain ⟨inner, hinner, rfl⟩ := List.mem_map.mp hrest
      obtain ⟨info, hinfo, rfl, hinfoKind, hopened, hcovered⟩ := hdependency dependency hin
      have hwithin := RowMajor.mem_indexes hinner
      rw [mem_received]
      refine ⟨hcovered.handedOver h hgraph hnot hsession hinfo hinfoKind hin hopened hgatheredNamed hwithin, ?_⟩
      have hdelivers : Delivers definition levels gathered size
          (info.nodeName, pair.1, below metadata (sized size (gathered pair.1)) inner) pair metadata inner :=
        ⟨rfl, hin, hgatheredNamed, hwithin, rfl⟩
      exact hdelivers.sessionOf_eq hgraph hsession

end Completion

section Accounted

variable {exit entry : NodeInfo} {order : List String} {checks : MetadataChecks}

/-- What holds of the states of a run, whatever sizes its demultiplexers have. -/
structure Runs (definition : PipelineDefinition) (levels gathered : String → List String) (entry : String)
    (s : State ε) : Prop where
  follows : ∀ size, (∀ name, 0 < size name) → Agrees definition size s → Follows definition levels gathered size s
  agrees : ∃ size, (∀ name, 0 < size name) ∧ Agrees definition size s
  names : ∀ pair ∈ s.history.executed, ∀ other ∈ s.history.executed, sessionName other = sessionName pair → other = pair
  entered : (entry, "") ∈ s.history.executed

theorem Runs.step (h : Runs definition levels gathered entry.nodeName s)
    (hgraph : ∀ size, (∀ name, 0 < size name) → Graph definition levels gathered size)
    (hallowed : Distinguishes definition s) (hstep : Pipeline.step definition s action = some t) :
    Runs definition levels gathered entry.nodeName t := by
  obtain ⟨size, hpos, hagrees⟩ := h.agrees
  have hfollows := h.follows size hpos hagrees
  have hhistory := step_history hstep
  refine ⟨?_, hfollows.exists_agrees (hgraph size hpos) hagrees hstep, ?_, ?_⟩
  · intro size' hpos' hagrees'
    have hbefore : Agrees definition size' s := by
      intro pair results hm
      apply hagrees' pair results
      rcases hhistory with ⟨_, hsame⟩ | ⟨_, _, hsame, _⟩ | ⟨_, _, _, _, _, _, hfetched, _⟩
      · rwa [hsame]
      · rwa [hsame]
      · rw [hfetched]
        exact List.mem_append_left _ hm
    exact (h.follows size' hpos' hbefore).step (hgraph size' hpos') hallowed hstep hagrees'
  · rcases hhistory with ⟨hsame, _⟩ | ⟨pair, hexecuted, _, hwhence⟩ | ⟨_, _, _, _, _, hsame, _⟩
    · rw [hsame]
      exact h.names
    · have hfirst : pair ∈ s.history.executed ∨
          ∀ other ∈ s.history.executed, sessionName other = sessionName pair → other = pair := by
        rcases hwhence with hdeferred | ⟨_, _, _, hlocation⟩
        · exact .inl (hfollows.deferred pair hdeferred)
        · unfold Distinguishes at hallowed
          rw [hlocation] at hallowed
          exact .inr hallowed
      have hnew : ∀ other ∈ s.history.executed, sessionName other = sessionName pair → other = pair := by
        rcases hfirst with hm | hnew
        · exact h.names pair hm
        · exact hnew
      rw [hexecuted]
      intro first hfirst second hsecond heq
      rcases List.mem_append.mp hfirst with hfirst | hfirst <;> rcases List.mem_append.mp hsecond with hsecond | hsecond
      · exact h.names first hfirst second hsecond heq
      · rw [List.mem_singleton.mp hsecond] at heq ⊢
        exact (hnew first hfirst heq.symm).symm
      · rw [List.mem_singleton.mp hfirst] at heq ⊢
        exact hnew second hsecond heq
      · rw [List.mem_singleton.mp hfirst, List.mem_singleton.mp hsecond]
    · rw [hsame]
      exact h.names
  · rcases hhistory with ⟨hsame, _⟩ | ⟨pair, hexecuted, _⟩ | ⟨_, _, _, _, _, hsame, _⟩
    · rw [hsame]
      exact h.entered
    · rw [hexecuted]
      exact List.mem_append_left _ h.entered
    · rw [hsame]
      exact h.entered

theorem Runs.initial (hgraph : ∀ size, (∀ name, 0 < size name) → Graph definition levels gathered size)
    (hentry : entry ∈ definition.nodeInfos) (hkind : entry.kind = .ENTRY) :
    Runs definition levels gathered entry.nodeName (Pipeline.initial definition entry.nodeName : State ε) := by
  refine ⟨fun size hpos _ => Follows.initial (hgraph size hpos) hentry hkind, ?_, ?_, List.mem_singleton.mpr rfl⟩
  · exact ⟨fun _ => 1, fun _ => Nat.one_pos, fun _ _ hm => absurd hm List.not_mem_nil⟩
  · intro pair hm other hm' _
    rw [List.mem_singleton.mp hm, List.mem_singleton.mp hm']

/-- When the loop is left, the texts of the sessions that were executed are those of the sessions that are
finished. -/
theorem Accounts.finished (h : Accounts s) {status : Option ε} (hleft : s.location = .left status)
    (hnames : ∀ pair ∈ s.history.executed, ∀ other ∈ s.history.executed,
      sessionName other = sessionName pair → other = pair) :
    (∀ pair ∈ s.history.executed, pair ∈ s.history.processed ∨ pair ∈ s.history.disarmed) ∧ s.running = [] := by
  have hbalanced := h.balanced
  have hstarted : s.startedSessions = (s.history.executed.map sessionName).toFinset := hbalanced.startedSessions
  have hfinished : s.finishedSessions = ((s.history.processed ++ s.history.disarmed).map sessionName).toFinset :=
    hbalanced.finishedSessions
  have hexecuted : ∀ pair ∈ s.history.processed ++ s.history.disarmed, pair ∈ s.history.executed := by
    intro pair hm
    rcases List.mem_append.mp hm with hm | hm
    · exact hbalanced.events_executed pair (List.mem_append_right _ hm)
    · exact hbalanced.disarmed_executed pair hm
  have hsubset : s.finishedSessions ⊆ s.startedSessions := by
    intro name hm
    rw [hfinished, List.mem_toFinset] at hm
    obtain ⟨pair, hpair, rfl⟩ := List.mem_map.mp hm
    rw [hstarted, List.mem_toFinset]
    exact List.mem_map.mpr ⟨pair, hexecuted pair hpair, rfl⟩
  have hsame : s.finishedSessions = s.startedSessions :=
    Finset.eq_of_subset_of_card_le hsubset (h.left status hleft).2.ge
  have hall : ∀ pair ∈ s.history.executed, pair ∈ s.history.processed ∨ pair ∈ s.history.disarmed := by
    intro pair hm
    have hname : sessionName pair ∈ s.finishedSessions := by
      rw [hsame, hstarted, List.mem_toFinset]
      exact List.mem_map.mpr ⟨pair, hm, rfl⟩
    rw [hfinished, List.mem_toFinset] at hname
    obtain ⟨other, hother, heq⟩ := List.mem_map.mp hname
    rw [hnames pair hm other (hexecuted other hother) heq] at hother
    exact List.mem_append.mp hother
  refine ⟨hall, List.eq_nil_iff_forall_not_mem.mpr fun pair hrunning => ?_⟩
  have hevent : pair ∈ s.running ++ s.finishedNodeQueue := List.mem_append_left _ hrunning
  rcases hall pair (hbalanced.events_executed pair (List.mem_append_left _ hevent)) with hprocessed | hdisarmed
  · exact (List.nodup_append.mp hbalanced.events_nodup).2.2 pair hevent pair hprocessed rfl
  · exact hbalanced.disarmed_started pair hdisarmed (hbalanced.running_started pair hrunning)

/-- A run in which the texts of the sessions are distinct and the counters do not overflow is accounted for. -/
theorem run_accounted (hvalidated : Validated definition checks) (hfed : Fed definition) (hcreated : Created definition)
    (hentry : entry ∈ definition.nodeInfos) (hentryKind : entry.kind = .ENTRY)
    (hexit : exit ∈ definition.nodeInfos) (hexitKind : exit.kind = .EXIT) {actions : List (Action ε)}
    (hrun : run definition (Distinguishes definition) (initial definition entry.nodeName) actions = some s) :
    Accounted exit.nodeName s := by
  obtain ⟨exit', order, levels, gathered, hchecked, _, _, hacyclic, hlevelled⟩ := hvalidated.levelled hfed
  have hgraph : ∀ size, (∀ name, 0 < size name) → Graph definition levels gathered size := fun size hpos =>
    ⟨hchecked, hlevelled, hcreated, hpos⟩
  have hruns : Runs definition levels gathered entry.nodeName s := by
    apply run_induction _ (Runs.initial hgraph hentry hentryKind) hrun
    exact fun _ _ _ h hallowed hstep => h.step hgraph hallowed hstep
  obtain ⟨size, hpos, hagrees⟩ := hruns.agrees
  have hfollows := hruns.follows size hpos hagrees
  have hbalanced := hfollows.accounts.balanced
  refine ⟨hbalanced.started_nodup, fun status hleft => hfollows.accounts.finished hleft hruns.names, ?_, ?_⟩
  · intro hleft
    have hnone : s.firstErrorStatus = none := (hfollows.accounts.left none hleft).1.symm
    obtain ⟨hall, _⟩ := hfollows.accounts.finished hleft hruns.names
    have hdisarmed : s.history.disarmed = [] := hbalanced.disarmed_nil hnone
    have hprocessed : ∀ pair ∈ s.history.executed, pair ∈ s.history.processed := by
      intro pair hm
      apply (hall pair hm).resolve_right
      rw [hdisarmed]
      exact List.not_mem_nil
    have hnot : s.records.failed = false := by
      show s.firstErrorStatus.isSome = false
      rw [hnone]
      rfl
    have hcourse := hfollows.course
    rw [hleft] at hcourse
    have hentered : ∀ node ∈ definition.nodeInfos, node.kind = .ENTRY → (node.nodeName, "") ∈ s.history.executed := by
      intro node hm hkind
      rw [hchecked.entries node hm entry hentry hkind hentryKind]
      exact hruns.entered
    have hcovered := hcourse.covered (hgraph size hpos) hacyclic hfed hentered hnot hprocessed hexit
    apply hcovered.done (exit.nodeName, "") {} []
    refine ⟨hchecked.find hexit, ?_, rfl⟩
    show Below size (levels exit.nodeName) {} []
    rw [hlevelled.exit exit hexit hexitKind]
    exact ⟨fun _ hm => absurd hm List.not_mem_nil, .nil, rfl⟩
  · intro status hleft
    rw [(hfollows.accounts.left status hleft).1]
    exact hbalanced.errors

/-- What the models and the libraries say when nothing is wrong with them. -/
def acceptsAll : MetadataChecks where
  node := fun _ => .ok ()
  connection := fun _ _ _ => .ok ()
  inputs := fun _ => .ok ()

/-- A pipeline of one model. -/
def single : PipelineDefinition where
  nodeInfos := [⟨.ENTRY, "request", none, ∅⟩, ⟨.DL, "resnet", none, ∅⟩, ⟨.EXIT, "response", none, ∅⟩]
  connections := [("resnet", [("request", [("image", "image")])]), ("response", [("resnet", [("scores", "scores")])])]
  dependants_nodup := by decide
  dependencies_nodup := by decide

theorem single_validated : Validated single acceptsAll where
  nodes := by decide
  cycles := Loop.exits_of_iterate (show Loop.iterate _ 20 _ = _ by decide)
  order := Loop.exits_of_iterate (show Loop.iterate _ 20 _ = _ by decide)

/-- The model is executed, then the exit. -/
def singleActions : List (Action String) := [
  .tryPull, .fetchResults (.ok [{}]), .setInputs .ok, .advance, .getReadySessions [("resnet", "")], .execute .ok,
  .advance, .advance, .complete ("resnet", ""),
  .tryPull, .fetchResults (.ok [{}]), .setInputs .ok, .advance, .getReadySessions [("response", "")], .execute .ok,
  .advance, .advance,
  .tryPull, .fetchResults (.ok []), .advance, .advance, .advance]

theorem run_accounted_single : ∃ s : State String,
    run single (Distinguishes single) (initial single "request") singleActions = some s ∧ Accounted "response" s := by
  have hsome : (run single (Distinguishes single) (initial single "request") singleActions).isSome = true := by
    decide
  obtain ⟨s, hrun⟩ := Option.isSome_iff_exists.mp hsome
  have hfed : Fed single := by
    unfold Fed
    decide
  have hcreated : Created single := by
    unfold Created
    decide
  have hentry : (⟨.ENTRY, "request", none, ∅⟩ : NodeInfo) ∈ single.nodeInfos := by decide
  have hexit : (⟨.EXIT, "response", none, ∅⟩ : NodeInfo) ∈ single.nodeInfos := by decide
  exact ⟨s, hrun, run_accounted single_validated hfed hcreated hentry rfl hexit rfl hrun⟩

/-- A pipeline in which the node `de_0` has a session with the text of the session `e_0` of the node `d`. -/
def collides : PipelineDefinition where
  nodeInfos := [⟨.ENTRY, "request", none, ∅⟩, ⟨.DL, "de_0", none, ∅⟩, ⟨.DL, "e", some 1, ∅⟩, ⟨.DL, "d", none, ∅⟩,
    ⟨.EXIT, "response", none, {"e"}⟩]
  connections := [("de_0", [("request", [("a", "a")])]), ("e", [("de_0", [("a", "a")])]), ("d", [("e", [("a", "a")])]),
    ("response", [("d", [("a", "a")])])]
  dependants_nodup := by decide
  dependencies_nodup := by decide

theorem collides_validated : Validated collides acceptsAll where
  nodes := by decide
  cycles := Loop.exits_of_iterate (show Loop.iterate _ 20 _ = _ by decide)
  order := Loop.exits_of_iterate (show Loop.iterate _ 20 _ = _ by decide)

/-- The nodes are executed one after the other, until the loop is left when `d` has been started. -/
def collidesActions : List (Action String) := [
  .tryPull, .fetchResults (.ok [{}]), .setInputs .ok, .advance, .getReadySessions [("de_0", "")], .execute .ok,
  .advance, .advance, .complete ("de_0", ""),
  .tryPull, .fetchResults (.ok [{}]), .setInputs .ok, .advance, .getReadySessions [("e", "")], .execute .ok,
  .advance, .advance, .complete ("e", ""),
  .tryPull, .fetchResults (.ok [⟨[("e", 0, 1)], ["e"]⟩]), .setInputs .ok, .advance, .getReadySessions [("d", "e_0")],
  .execute .ok, .advance, .advance]

/-- The state was left without a status of failure. -/
def State.leftUnfailed {ε : Type} (s : State ε) : Bool :=
  match s.location with
  | .left none => true
  | _ => false

/-- The loop of a pipeline that passed its validation is left while an inference runs. -/
theorem collides_leaves_running : Validated collides acceptsAll ∧ ∃ s : State String,
    run collides (fun _ => True) (initial collides "request") collidesActions = some s ∧
      s.location = .left none ∧ s.running = [("d", "e_0")] ∧ ¬ Accounted "response" s := by
  have hrunning : (run collides (fun _ => True) (initial collides "request") collidesActions).map
      (fun s : State String => (s.running, s.leftUnfailed)) =
      some ([("d", "e_0")], true) := by
    decide
  refine ⟨collides_validated, ?_⟩
  obtain ⟨s, hrun, hs⟩ := Option.map_eq_some_iff.mp hrunning
  obtain ⟨hrunning, hplace⟩ := Prod.mk.inj hs
  have hleft : s.location = .left none := by
    rw [State.leftUnfailed] at hplace
    split at hplace
    next hlocation => exact hlocation
    next => cases hplace
  refine ⟨s, hrun, hleft, hrunning, fun haccounted => ?_⟩
  have hnone := (haccounted.finished none hleft).2
  rw [hrunning] at hnone
  cases hnone

end Accounted

end ModelServer.Pipeline
