import ModelServer.PipelineAccounting
import ModelServer.PipelineCourse

namespace ModelServer.Pipeline

open NodeSessionMetadata PipelineDefinition

variable {ε : Type}

section Locations

def Location.current : Location ε → Option NodeSessionKeyPair
  | .fetching finished => some finished
  | _ => none

def Location.pending : Location ε → List (String × String × NodeSessionMetadata)
  | .feeding finished _ handOvers => handOvers.map (finished.1, ·)
  | _ => []

def Location.nextNodes : Location ε → List String
  | .feeding _ nextNodes _ => nextNodes
  | .scheduling nextNodes _ _ => nextNodes
  | _ => []

def Location.readySessions : Location ε → List NodeSessionKeyPair
  | .scheduling _ readySessions _ => readySessions
  | _ => []

/-- The accounting and the course of a run at a place in the loop. -/
structure Follows (definition : PipelineDefinition) (levels gathered : String → List String) (size : String → Nat)
    (s : State ε) : Prop where
  accounts : Accounts s
  course : Course definition levels gathered size s.records s.location.current s.location.pending
    s.location.nextNodes s.location.readySessions

end Locations

/-- The hand-overs that the session of a node waits for, to which a session of a dependency belongs. -/
def inputsCount (definition : PipelineDefinition) (nodeName : String) (metadata : NodeSessionMetadata) : Nat :=
  (definition.connectedTo nodeName).length *
    match (definition.findNodeByName nodeName).map fun node =>
      metadata.getCollapsedSessionMetadata node.gatherFromNode with
    | some (.ok (_, collapsingDetails)) => collapsingDetails.collapsedSessionSizes.prod
    | _ => 1

/-- The results that were fetched of a demultiplexer have its size. -/
def Agrees (definition : PipelineDefinition) (size : String → Nat) (s : State ε) : Prop :=
  ∀ pair results, (pair, results) ∈ s.history.fetched → ∀ node, definition.findNodeByName pair.1 = some node →
    node.kind ≠ .EXIT → node.demultiplyCount.isSome → results.length = size node.nodeName

variable {definition : PipelineDefinition} {levels gathered : String → List String} {size : String → Nat}
  {s t : State ε} {pair finished : NodeSessionKeyPair} {node : NodeInfo} {metadata : NodeSessionMetadata}
  {index inner : List Nat} {handOver : String × String × NodeSessionMetadata}

section HandedOver

theorem inputsCount_eq (hgraph : Graph definition levels gathered size)
    (hsession : IsSession definition levels size pair node metadata index)
    (hdelivers : Delivers definition levels gathered size handOver pair metadata inner) :
    inputsCount definition handOver.2.1 handOver.2.2 = total definition gathered size pair.1 := by
  obtain ⟨hm, hname⟩ := hsession.info
  have hgathers := hgraph.levelled.gathers node hm
  rw [hname] at hgathers
  have hnodup := (List.nodup_append.mp (hgraph.nodup hsession)).1
  have hfresh := hsession.below.fresh_more hnodup hdelivers.named
  have hlength : inner.length = (sized size (gathered pair.1)).length := by
    rw [hdelivers.within.length_eq, List.length_map, length_sized]
  unfold inputsCount total
  rw [hdelivers.node, hsession.found, hdelivers.eq_below]
  congr 1
  by_cases hnil : gathered pair.1 = []
  · rw [hnil] at hgathers ⊢
    have hnone : ∀ metadata' : NodeSessionMetadata,
        metadata'.getCollapsedSessionMetadata node.gatherFromNode = .error "Tried to collapse sessions with empty set" := by
      intro metadata'
      rw [← hgathers]
      rfl
    rw [Option.map_some, hnone]
    rfl
  · have hne : sized size (gathered pair.1) ≠ [] := by
      intro heq
      exact hnil (List.map_eq_nil_iff.mp heq)
    have hcollapsed := getCollapsedSessionMetadata_below hfresh hne hlength
    rw [sized_fst, hgathers, sized_snd] at hcollapsed
    rw [Option.map_some, hcollapsed]

/-- The session that a session of a dependency is handed over to. -/
theorem getNodeSession_delivers (hgraph : Graph definition levels gathered size)
    (hsession : IsSession definition levels size pair node metadata index)
    (hdelivers : Delivers definition levels gathered size handOver pair metadata inner)
    (hbound : total definition gathered size pair.1 < sessionIdWord) (sessions : NodeSessions) :
    ((definition.findNodeByName handOver.2.1).map fun node =>
      Node.getNodeSession node (definition.connectedTo handOver.2.1).length sessions handOver.2.2) =
    some (.ok (pair, if (sessions.lookup pair).isSome then sessions
      else sessions ++ [(pair, { metadata := metadata
                                 remainingDependencies := total definition gathered size pair.1 })])) := by
  obtain ⟨hm, hname⟩ := hsession.info
  have hgathers := hgraph.levelled.gathers node hm
  rw [hname] at hgathers
  have hnodup := (List.nodup_append.mp (hgraph.nodup hsession)).1
  have hget := getNodeSession_below hsession.below hnodup hdelivers.named hdelivers.within hgathers
    (fun name _ => hgraph.positive name) hbound hsession.key sessions
  rw [hdelivers.node, hsession.found, hdelivers.eq_below, Option.map_some, hget, hname]
  rfl

end HandedOver

section Executed

def Outcome.fails : Outcome ε → Bool
  | .failed _ _ => true
  | _ => false

theorem State.execute_records {kind : NodeKind} {outcome : Outcome ε} (h : s.execute kind pair outcome = some t) :
    ∃ used : Bool, t.records = { s.records with
      nodeSessions := if used then s.nodeSessions.alter pair NodeSession.getInputs else s.nodeSessions
      executed := s.history.executed ++ [pair]
      failed := s.records.failed || outcome.fails } ∧
      (used = true ∨ outcome.fails = true ∨ kind = .ENTRY ∨ kind = .EXIT) := by
  cases outcome with
  | ok =>
    cases kind <;> cases h
    · exact ⟨false, by simp [records, Outcome.fails, push, start, call], .inr (.inr (.inl rfl))⟩
    · exact ⟨true, by simp [records, Outcome.fails, run, start, call], .inl rfl⟩
    · exact ⟨true, by simp [records, Outcome.fails, push, start, call], .inl rfl⟩
    · exact ⟨false, by simp [records, Outcome.fails, push, start, call], .inr (.inr (.inr rfl))⟩
  | notReady =>
    cases kind <;> cases h
    exact ⟨true, by simp [records, Outcome.fails, call], .inl rfl⟩
  | failed status used =>
    cases kind <;> cases h
    · exact ⟨used, by simp [records, Outcome.fails, push, setFailIfNotFailEarlier, call], .inr (.inl rfl)⟩
    · exact ⟨true, by simp [records, Outcome.fails, push, setFailIfNotFailEarlier, call], .inr (.inl rfl)⟩

theorem State.fail_records (s : State ε) (status : ε) :
    (s.setFailIfNotFailEarlier status).records = { s.records with failed := true } := by
  unfold setFailIfNotFailEarlier records
  cases s.firstErrorStatus <;> rfl

theorem Course.setFail {fetching : Option NodeSessionKeyPair}
    {pending : List (String × String × NodeSessionMetadata)} {nextNodes : List String} {ready : List NodeSessionKeyPair}
    (h : Course definition levels gathered size s.records fetching pending nextNodes ready) (status : ε) :
    Course definition levels gathered size (s.setFailIfNotFailEarlier status).records none [] nextNodes [] := by
  rw [State.fail_records]
  exact h.fail

variable {nextNodes : List String} {ready rest : List NodeSessionKeyPair} {outcome : Outcome ε}

theorem Course.execute (h : Course definition levels gathered size s.records none [] nextNodes ready)
    (hgraph : Graph definition levels gathered size)
    (hsession : IsSession definition levels size pair node metadata index)
    (hall : (received definition s.history.handedOver pair).length = total definition gathered size pair.1)
    (hbehind : pair.1 ∉ nextNodes) (hrest : ∀ other ∈ ready, other = pair ∨ other ∈ rest)
    (hsublist : rest.Sublist ready) (hpair : pair ∉ rest)
    (hexecute : s.execute (kindOf definition pair.1) pair outcome = some t) :
    Course definition levels gathered size t.records none [] nextNodes rest := by
  obtain ⟨used, hrecords, hused⟩ := State.execute_records hexecute
  rw [hrecords]
  apply h.call hsession hall hbehind _ hrest hsublist hpair
  rcases hused with hused | hfails | hentry | hexit
  · exact .inl hused
  · exact .inr (.inl hfails)
  · obtain ⟨hm, hname⟩ := hsession.info
    unfold kindOf at hentry
    rw [hsession.found] at hentry
    have hnone := (hgraph.levelled.entry node hm hentry).2.2
    rw [hname] at hnone
    exact .inr (.inr (.inl hnone))
  · exact .inr (.inr (.inr hexit))

end Executed

section Steps

theorem Follows.breakIfAllFinished (haccounts : Accounts s.breakIfAllFinished)
    (hcourse : Course definition levels gathered size s.records none [] [] []) :
    Follows definition levels gathered size s.breakIfAllFinished := by
  refine ⟨haccounts, ?_⟩
  unfold State.breakIfAllFinished
  split
  next => exact hcourse
  next => exact hcourse

theorem Follows.complete (h : Follows definition levels gathered size s) (hcomplete : s.complete pair = some t) :
    Follows definition levels gathered size t := by
  refine ⟨h.accounts.complete hcomplete, ?_⟩
  unfold State.complete at hcomplete
  split at hcomplete
  next =>
    cases hcomplete
    exact h.course
  next => cases hcomplete

theorem Follows.tryPull (h : Follows definition levels gathered size s) (hlocation : s.location = .pulling) :
    Follows definition levels gathered size s.tryPull := by
  have haccounts := h.accounts.tryPull hlocation
  have hcourse := h.course
  have hnodup := h.accounts.balanced.events_nodup
  rw [hlocation] at hcourse
  unfold State.tryPull at haccounts ⊢
  split at haccounts
  next finished rest hqueue =>
    simp only at haccounts ⊢
    have hnew : finished ∉ s.history.processed := by
      intro hm
      have hqueued : finished ∈ s.running ++ s.finishedNodeQueue := by
        rw [hqueue]
        exact List.mem_append_right _ List.mem_cons_self
      exact (List.nodup_append.mp hnodup).2.2 finished hqueued finished hm rfl
    split at haccounts
    next status hstatus =>
      have hfailed : s.records.failed = true := by
        show s.firstErrorStatus.isSome = true
        rw [hstatus]
        rfl
      apply Follows.breakIfAllFinished haccounts
      exact hcourse.pull hnew (fun hnot => absurd (hfailed.symm.trans hnot) Bool.noConfusion)
        fun other hm => absurd hm (Option.not_mem_none _)
    next hnone =>
      refine ⟨haccounts, ?_⟩
      exact hcourse.pull hnew (fun _ => rfl) fun other hm => (Option.mem_some_iff.mp hm).symm
  next =>
    split at haccounts
    next => exact ⟨haccounts, hcourse⟩
    next => exact ⟨haccounts, hcourse⟩

theorem Follows.fetchResults (h : Follows definition levels gathered size s)
    (hgraph : Graph definition levels gathered size) (hlocation : s.location = .fetching finished)
    {outcome : Except ε (List NodeSessionMetadata)} (hfetch : s.fetchResults definition finished outcome = some t)
    (hagrees : Agrees definition size t) : Follows definition levels gathered size t := by
  have haccounts := h.accounts.fetchResults hlocation hfetch
  have hcourse := h.course
  rw [hlocation] at hcourse
  obtain ⟨hnone, hprocessed⟩ := h.accounts.fetching finished hlocation
  have hexecuted : finished ∈ s.history.executed :=
    h.accounts.balanced.events_executed finished (List.mem_append_right _ hprocessed)
  cases outcome with
  | error status =>
    cases hfetch
    apply Follows.breakIfAllFinished haccounts
    rw [State.fail_records]
    exact (hcourse.erase hexecuted).fail.leave rfl
  | ok results =>
    simp only [State.fetchResults] at hfetch
    split at hfetch
    next node session hfound hlookup =>
      split at hfetch
      next => cases hfetch
      next sessions hsessions =>
        split at hfetch
        next hperm =>
          cases hfetch
          obtain ⟨node', index, hsession⟩ := hcourse.tracks.sessions finished session (mem_of_lookup hlookup)
          have hnode : node = node' := Option.some.inj (hfound.symm.trans hsession.found)
          subst hnode
          have hshards := hagrees finished results (List.mem_append_right _ (List.mem_singleton.mpr rfl)) node hfound
          have hnot : s.records.failed = false := by
            show s.firstErrorStatus.isSome = false
            rw [hnone]
            rfl
          refine ⟨haccounts, ?_⟩
          have hfetched := hcourse.fetch hgraph hnot hprocessed hexecuted ⟨hsession, hshards, sessions, hsessions, hperm⟩
          show Course definition levels gathered size _ none
            (((getNextNodes definition finished.1).flatMap fun nextNode => results.map (nextNode, ·)).map (finished.1, ·))
            _ []
          rw [List.map_flatMap]
          simp only [List.map_map]
          exact hfetched
        next => cases hfetch
    next => cases hfetch

/-- A session of a dependency is handed over to its session, which is created where it is missing. -/
theorem Course.setInputs {nextNodes : List String} {nextNode dependency : String} {metadata : NodeSessionMetadata}
    {pending : List (String × String × NodeSessionMetadata)}
    (h : Course definition levels gathered size s.records none ((dependency, nextNode, metadata) :: pending) nextNodes [])
    (hgraph : Graph definition levels gathered size)
    (hbound : inputsCount definition nextNode metadata < sessionIdWord) :
    ∃ pair sessions, (definition.findNodeByName nextNode).map (fun node =>
        Node.getNodeSession node (definition.connectedTo nextNode).length s.nodeSessions metadata) =
        some (.ok (pair, sessions)) ∧
      Course definition levels gathered size { s.records with nodeSessions := sessions } none
        ((dependency, nextNode, metadata) :: pending) nextNodes [] ∧
      Course definition levels gathered size ({ s with nodeSessions := sessions }.notify dependency pair metadata).records
        none pending nextNodes [] := by
  obtain ⟨source, results, hfetched, hname, hresult⟩ := h.pending_origin _ List.mem_cons_self
  obtain ⟨node, _, index, hresults⟩ := h.tracks.results source results hfetched
  obtain ⟨hnext, hconnected⟩ := h.pending_next _ List.mem_cons_self
  have hsource : nextNode ∈ getNextNodes definition source.1 := by
    rw [hname]
    exact hconnected
  obtain ⟨pair, node', metadata', index', inner, hsession, hdelivers⟩ := hresults.delivers hgraph hsource hresult
  have hdependency : source.1 = dependency := hname
  rw [hdependency] at hdelivers
  have htotal := inputsCount_eq hgraph hsession hdelivers
  have hword : total definition gathered size pair.1 < sessionIdWord := by
    rw [← htotal]
    exact hbound
  have hget := getNodeSession_delivers hgraph hsession hdelivers hword s.nodeSessions
  have hexecuted := h.tracks.not_executed hgraph hsession hdelivers (h.pending_new _ List.mem_cons_self)
  have hpair : pair.1 ∈ nextNodes := by
    rw [← hdelivers.node]
    exact hnext
  have hcreated := h.create hsession hpair hexecuted hword
  have hnode : nextNode = pair.1 := hdelivers.node
  refine ⟨pair, _, hget, hcreated, ?_⟩
  have hkey : pair ∈ (if (s.nodeSessions.lookup pair).isSome then s.nodeSessions
      else s.nodeSessions ++ [(pair, { metadata := metadata'
                                       remainingDependencies :=
                                         total definition gathered size pair.1 })]).map Prod.fst := by
    split
    next hlookup =>
      obtain ⟨session, hsome⟩ := Option.isSome_iff_exists.mp hlookup
      exact List.mem_map.mpr ⟨(pair, session), mem_of_lookup hsome, rfl⟩
    next =>
      rw [List.map_append]
      exact List.mem_append_right _ (List.mem_singleton.mpr rfl)
  have hnotified := hcreated.notify hgraph hsession hdelivers hkey
  rw [hnode] at hnotified
  exact hnotified

theorem Follows.setInputs (h : Follows definition levels gathered size s)
    (hgraph : Graph definition levels gathered size) {nextNodes : List String} {nextNode : String}
    {metadata : NodeSessionMetadata} {handOvers : List (String × NodeSessionMetadata)}
    (hlocation : s.location = .feeding finished nextNodes ((nextNode, metadata) :: handOvers))
    (hbound : inputsCount definition nextNode metadata < sessionIdWord) {outcome : HandOver ε}
    (hset : s.setInputs definition finished nextNodes nextNode metadata handOvers outcome = some t) :
    Follows definition levels gathered size t := by
  have haccounts := h.accounts.setInputs hlocation hset
  have hcourse := h.course
  rw [hlocation] at hcourse
  obtain ⟨pair, sessions, hget, hcreated, hnotified⟩ := hcourse.setInputs hgraph hbound
  cases outcome with
  | ok =>
    simp only [State.setInputs, hget] at hset
    cases hset
    exact ⟨haccounts, hnotified⟩
  | failed status counted =>
    simp only [State.setInputs, hget] at hset
    cases hset
    refine ⟨haccounts, ?_⟩
    cases counted with
    | false => exact hcreated.setFail (s := { s with nodeSessions := sessions }) status
    | true => exact hnotified.setFail status

theorem Follows.schedule (h : Follows definition levels gathered size s)
    (hgraph : Graph definition levels gathered size) {nextNodes : List String}
    {readySessions tmpDeferred : List NodeSessionKeyPair}
    (hlocation : s.location = .scheduling nextNodes (pair :: readySessions) tmpDeferred) {outcome : Outcome ε}
    (hschedule : s.schedule definition nextNodes pair readySessions tmpDeferred outcome = some t) :
    Follows definition levels gathered size t := by
  have hcourse := h.course
  rw [hlocation] at hcourse
  have haccounts := h.accounts.schedule hlocation (hcourse.ready_new pair List.mem_cons_self) hschedule
  obtain ⟨session, hin, hzero⟩ := hcourse.ready_satisfied pair List.mem_cons_self
  obtain ⟨node, index, hsession⟩ := hcourse.tracks.sessions pair session hin
  have hall : (received definition s.history.handedOver pair).length = total definition gathered size pair.1 := by
    have hcounted := hcourse.tracks.counted pair session hin
    rwa [hzero, Nat.zero_add] at hcounted
  simp only [State.schedule] at hschedule
  split at hschedule
  next => cases hschedule
  next u hexecute =>
    cases hschedule
    refine ⟨haccounts, ?_⟩
    have hstarted : Course definition levels gathered size
        { s with startedSessions := insert (sessionName pair) s.startedSessions }.records none [] nextNodes
        (pair :: readySessions) := hcourse
    have hexecuted : Course definition levels gathered size u.records none [] nextNodes readySessions :=
      hstarted.execute hgraph hsession hall (hcourse.ready_behind pair List.mem_cons_self)
        (fun other hm => List.mem_cons.mp hm) (List.sublist_cons_self pair readySessions)
        (List.nodup_cons.mp hcourse.ready_nodup).1 hexecute
    show Course definition levels gathered size u.records none [] nextNodes
      (if u.firstErrorStatus.isSome then [] else readySessions)
    split
    next hsome => exact hexecuted.halt hsome
    next => exact hexecuted

/-- A deferred session is tried again. -/
theorem Course.retry {next : Nat → Location ε} {it : Nat} {outcome : Outcome ε}
    (h : Course definition levels gathered size s.records none [] [] [])
    (hgraph : Graph definition levels gathered size)
    (hdeferred : ∀ pair ∈ s.deferredNodeSessions, pair ∈ s.history.executed)
    (hretry : s.retry definition next it outcome = some t) :
    Course definition levels gathered size t.records none [] [] [] ∧ ∃ i, t.location = next i := by
  unfold State.retry at hretry
  split at hretry
  next => cases hretry
  next pair hpair =>
    have hexecuted := hdeferred pair (List.mem_of_getElem? hpair)
    obtain ⟨node, metadata, index, hsession⟩ := h.tracks.executed pair hexecuted
    have hall := h.tracks.satisfied pair hexecuted
    split at hretry
    next => cases hretry
    next u hexecute =>
      have hcourse := h.execute hgraph hsession hall List.not_mem_nil
        (fun other hm => absurd hm List.not_mem_nil) (List.Sublist.refl _) List.not_mem_nil hexecute
      split at hretry
      next =>
        cases hretry
        exact ⟨hcourse, _, rfl⟩
      next =>
        cases hretry
        exact ⟨hcourse, _, rfl⟩

theorem Follows.deferred (h : Follows definition levels gathered size s) :
    ∀ pair ∈ s.deferredNodeSessions, pair ∈ s.history.executed := fun pair hm =>
  h.accounts.balanced.waiting_executed pair (List.mem_append_left _ hm)

theorem Follows.tryDisarm (h : Follows definition levels gathered size s) {it : Nat}
    (hlocation : s.location = .disarming it) {succeeded : Bool} (hdisarm : s.tryDisarm it succeeded = some t) :
    Follows definition levels gathered size t := by
  have haccounts := h.accounts.tryDisarm hlocation hdisarm
  have hcourse := h.course
  rw [hlocation] at hcourse
  refine ⟨haccounts, ?_⟩
  unfold State.tryDisarm at hdisarm
  split at hdisarm
  next => cases hdisarm
  next =>
    split at hdisarm
    next =>
      cases hdisarm
      exact hcourse
    next =>
      cases hdisarm
      exact hcourse

theorem Follows.advance (h : Follows definition levels gathered size s) (hadvance : s.advance = some t) :
    Follows definition levels gathered size t := by
  have haccounts := h.accounts.advance hadvance
  have hcourse := h.course
  unfold State.advance at hadvance
  split at hadvance
  next hlocation =>
    rw [hlocation] at hcourse
    cases hadvance
    exact ⟨haccounts, hcourse⟩
  next hlocation =>
    rw [hlocation] at hcourse
    cases hadvance
    exact ⟨haccounts, hcourse⟩
  next hlocation =>
    rw [hlocation] at hcourse
    split at hadvance
    next =>
      cases hadvance
      exact Follows.breakIfAllFinished haccounts hcourse
    next =>
      cases hadvance
      exact ⟨haccounts, hcourse⟩
  next hlocation =>
    rw [hlocation] at hcourse
    split at hadvance
    next =>
      cases hadvance
      split at haccounts
      next hdeferred =>
        rw [if_pos hdeferred]
        exact ⟨haccounts, hcourse⟩
      next hdeferred =>
        rw [if_neg hdeferred]
        exact Follows.breakIfAllFinished haccounts hcourse
    next => cases hadvance
  next hlocation =>
    rw [hlocation] at hcourse
    split at hadvance
    next =>
      cases hadvance
      exact ⟨haccounts, hcourse⟩
    next => cases hadvance
  next => cases hadvance

end Steps

end ModelServer.Pipeline
