import ModelServer.PipelineRuns
import ModelServer.SessionCompleteness

namespace ModelServer.SessionFlow

open NodeSessionMetadata PipelineDefinition Pipeline

variable {ε : Type} {definition : PipelineDefinition} {s t : State ε} {action : Action ε}

/-- Sessions may be split into any number of shards. -/
def anyNumber : Splits := fun _ _ _ => True

/-- A session that is handed over to a node by the loop reaches the node. -/
def HandsOver (definition : PipelineDefinition) (handOver : String × String × NodeSessionMetadata) : Prop :=
  ∃ dependency, definition.findNodeByName handOver.1 = some dependency ∧
    ∀ node, definition.findNodeByName handOver.2.1 = some node →
      Arrives definition anyNumber dependency node handOver.2.2

/-- The sessions that the nodes hold. -/
def Held (definition : PipelineDefinition) (sessions : NodeSessions) : Prop :=
  ∀ pair session, (pair, session) ∈ sessions →
    ∃ node, definition.findNodeByName pair.1 = some node ∧ Session definition anyNumber node session.metadata

structure Flows (definition : PipelineDefinition) (s : State ε) : Prop where
  sessions : Held definition s.nodeSessions
  pending : ∀ handOver ∈ s.location.pending, HandsOver definition handOver
  handedOver : ∀ handOver ∈ s.history.handedOver, HandsOver definition handOver

section Held

variable {sessions : NodeSessions} {pair : NodeSessionKeyPair} {f : NodeSession → NodeSession}

theorem Held.alter (h : Held definition sessions) (hf : ∀ session, (f session).metadata = session.metadata) :
    Held definition (sessions.alter pair f) := by
  intro key session hm
  obtain ⟨old, hold, rfl⟩ := NodeSessions.mem_alter.mp hm
  obtain ⟨node, hfound, hsession⟩ := h key old hold
  refine ⟨node, hfound, ?_⟩
  split
  next =>
    rw [hf]
    exact hsession
  next => exact hsession

theorem Held.erase (h : Held definition sessions) : Held definition (sessions.erase pair) :=
  fun key session hm => h key session (NodeSessions.mem_erase.mp hm).1

/-- A session that is created is the one that what arrives is collapsed to. -/
theorem Held.getNodeSession (h : Held definition sessions) {dependency node : NodeInfo}
    {metadata : NodeSessionMetadata} (harrives : Arrives definition anyNumber dependency node metadata)
    (hfound : definition.findNodeByName node.nodeName = some node) {previous : Nat} {sessions' : NodeSessions}
    (hget : Node.getNodeSession node previous sessions metadata = .ok (pair, sessions')) :
    Held definition sessions' := by
  have hcreated : ∀ key session details, collapse node metadata = .ok (session, details) →
      Held definition (sessions ++ [((node.nodeName, key), NodeSession.create session previous details)]) := by
    intro key session details hcollapse other held hm
    rcases List.mem_append.mp hm with hm | hm
    · exact h other held hm
    · obtain ⟨rfl, rfl⟩ := Prod.mk.inj (List.mem_singleton.mp hm)
      exact ⟨node, hfound, harrives.session hcollapse⟩
  unfold collapse at hcreated
  unfold Node.getNodeSession at hget
  split at hget
  next => cases hget
  next key hkey =>
    split at hget
    next =>
      cases hget
      exact h
    next =>
      split at hget
      next hnone =>
        cases hget
        exact hcreated key _ _ (if_pos hnone)
      next hsome =>
        rw [if_neg hsome] at hcreated
        split at hget
        next => cases hget
        next hcollapsed =>
          cases hget
          exact hcreated key _ _ hcollapsed

theorem getNodeSession_name {node : NodeInfo} {metadata : NodeSessionMetadata} {previous : Nat}
    {sessions' : NodeSessions} (hget : Node.getNodeSession node previous sessions metadata = .ok (pair, sessions')) :
    pair.1 = node.nodeName := by
  unfold Node.getNodeSession at hget
  split at hget
  next => cases hget
  next =>
    split at hget
    next =>
      cases hget
      rfl
    next =>
      split at hget
      next =>
        cases hget
        rfl
      next =>
        split at hget <;> cases hget
        rfl

end Held

section Steps

/-- What is left to be handed over after the loops over the next nodes have ended. -/
theorem Flows.leave (h : Flows definition s) (hsessions : Held definition t.nodeSessions)
    (hpending : t.location.pending = []) (hhandedOver : t.history.handedOver = s.history.handedOver) :
    Flows definition t := by
  refine ⟨hsessions, ?_, ?_⟩
  · rw [hpending]
    exact fun _ hm => absurd hm List.not_mem_nil
  · rw [hhandedOver]
    exact h.handedOver

theorem breakIfAllFinished_pending (s : State ε) : s.breakIfAllFinished.location.pending = [] := by
  unfold State.breakIfAllFinished
  split <;> rfl

theorem Flows.tryPull (h : Flows definition s) : Flows definition s.tryPull := by
  unfold State.tryPull
  split
  next =>
    simp only
    split
    next => exact h.leave h.sessions (breakIfAllFinished_pending _) rfl
    next => exact h.leave h.sessions rfl rfl
  next =>
    split
    next => exact h.leave h.sessions rfl rfl
    next => exact h.leave h.sessions rfl rfl

theorem Flows.fetchResults (h : Flows definition s) {finished : NodeSessionKeyPair}
    {outcome : Except ε (List NodeSessionMetadata)} (hfetch : s.fetchResults definition finished outcome = some t) :
    Flows definition t := by
  cases outcome with
  | error status =>
    cases hfetch
    exact h.leave h.sessions.erase (breakIfAllFinished_pending _) rfl
  | ok results =>
    unfold State.fetchResults at hfetch
    simp only at hfetch
    split at hfetch
    next node session hfound hlookup =>
      split at hfetch
      next => cases hfetch
      next sessions hsessions =>
        split at hfetch
        next hperm =>
          cases hfetch
          refine ⟨h.sessions.erase, ?_, h.handedOver⟩
          intro handOver hm
          obtain ⟨⟨nextNode, metadata⟩, hnext, rfl⟩ := List.mem_map.mp hm
          obtain ⟨nextNode', hnextNode, hresult⟩ := List.mem_flatMap.mp hnext
          obtain ⟨result, hin, heq⟩ := List.mem_map.mp hresult
          obtain ⟨rfl, rfl⟩ := Prod.mk.inj heq
          obtain ⟨node', hnode, hsession⟩ := h.sessions finished session (mem_of_lookup hlookup)
          cases hfound.symm.trans hnode
          obtain ⟨_, hname⟩ := findNodeByName_mem hfound
          refine ⟨node, hfound, fun next hnextFound => ?_⟩
          obtain ⟨hm, hnextName⟩ := findNodeByName_mem hnextFound
          refine ⟨_, _, _, hsession, trivial, hsessions, hperm.mem_iff.mp hin, hm, ?_⟩
          rw [hname, hnextName]
          exact mem_getNextNodes.mp hnextNode
        next => cases hfetch
    next => cases hfetch

/-- The session of a node that a session of a dependency belongs to is there, and may be counted. -/
theorem Flows.setInputs (h : Flows definition s) {finished : NodeSessionKeyPair} {nextNodes : List String}
    {nextNode : String} {metadata : NodeSessionMetadata} {handOvers : List (String × NodeSessionMetadata)}
    (hlocation : s.location = .feeding finished nextNodes ((nextNode, metadata) :: handOvers))
    {outcome : HandOver ε} (hset : s.setInputs definition finished nextNodes nextNode metadata handOvers outcome = some t) :
    Flows definition t := by
  have hpending : ∀ handOver ∈ (finished.1, nextNode, metadata) :: handOvers.map (finished.1, ·),
      HandsOver definition handOver := by
    intro handOver hm
    apply h.pending
    rw [hlocation]
    exact hm
  have hhandsOver := hpending _ List.mem_cons_self
  have hsessions : ∀ {pair sessions}, (definition.findNodeByName nextNode).map (fun node =>
      Node.getNodeSession node (definition.connectedTo nextNode).length s.nodeSessions metadata) =
        some (.ok (pair, sessions)) → Held definition sessions ∧ pair.1 = nextNode := by
    intro pair sessions hsome
    obtain ⟨node, hfound, hget⟩ := Option.map_eq_some_iff.mp hsome
    obtain ⟨_, hname⟩ := findNodeByName_mem hfound
    obtain ⟨_, _, harrives⟩ := hhandsOver
    exact ⟨h.sessions.getNodeSession (harrives node hfound) (hname ▸ hfound) hget,
      (getNodeSession_name hget).trans hname⟩
  have hnotified : ∀ {pair : NodeSessionKeyPair}, pair.1 = nextNode →
      ∀ handOver ∈ s.history.handedOver ++ [(finished.1, pair.1, metadata)], HandsOver definition handOver := by
    rintro pair hname handOver hm
    rcases List.mem_append.mp hm with hm | hm
    · exact h.handedOver handOver hm
    · rw [List.mem_singleton.mp hm, hname]
      exact hhandsOver
  cases outcome with
  | ok =>
    unfold State.setInputs at hset
    simp only at hset
    split at hset
    next pair sessions hsome =>
      cases hset
      obtain ⟨hheld, hname⟩ := hsessions hsome
      exact ⟨hheld.alter NodeSession.notifyFinishedDependency_metadata,
        fun handOver hm => hpending handOver (List.mem_cons_of_mem _ hm), hnotified hname⟩
    next => cases hset
  | failed status counted =>
    unfold State.setInputs at hset
    simp only at hset
    split at hset
    next pair sessions hsome =>
      cases hset
      obtain ⟨hheld, hname⟩ := hsessions hsome
      cases counted with
      | true =>
        exact ⟨hheld.alter NodeSession.notifyFinishedDependency_metadata, fun _ hm => absurd hm List.not_mem_nil,
          hnotified hname⟩
      | false => exact h.leave hheld rfl rfl
    next =>
      cases hset
      exact h.leave h.sessions rfl rfl

theorem execute_flows (h : Flows definition s) {kind : NodeKind} {pair : NodeSessionKeyPair} {outcome : Outcome ε}
    (hexecute : s.execute kind pair outcome = some t) :
    Held definition t.nodeSessions ∧ t.history.handedOver = s.history.handedOver := by
  obtain ⟨used, hrecords, _⟩ := State.execute_records hexecute
  have hsessions : t.nodeSessions = if used then s.nodeSessions.alter pair NodeSession.getInputs else s.nodeSessions :=
    congrArg Records.nodeSessions hrecords
  refine ⟨?_, congrArg Records.handedOver hrecords⟩
  rw [hsessions]
  split
  next => exact h.sessions.alter fun _ => rfl
  next => exact h.sessions

theorem Flows.schedule (h : Flows definition s) {nextNodes : List String} {pair : NodeSessionKeyPair}
    {readySessions tmpDeferredNodeSessions : List NodeSessionKeyPair} {outcome : Outcome ε}
    (hschedule : s.schedule definition nextNodes pair readySessions tmpDeferredNodeSessions outcome = some t) :
    Flows definition t := by
  unfold State.schedule at hschedule
  simp only at hschedule
  split at hschedule
  next => cases hschedule
  next u hexecute =>
    cases hschedule
    have hstarted : Flows definition
        ({ s with startedSessions := insert (sessionName pair) s.startedSessions } : State ε) :=
      ⟨h.sessions, h.pending, h.handedOver⟩
    obtain ⟨hsessions, hhandedOver⟩ := execute_flows hstarted hexecute
    exact h.leave hsessions rfl hhandedOver

theorem Flows.retry (h : Flows definition s) {next : Nat → Location ε} (hnext : ∀ it, (next it).pending = []) {it : Nat}
    {outcome : Outcome ε} (hretry : s.retry definition next it outcome = some t) : Flows definition t := by
  unfold State.retry at hretry
  split at hretry
  next => cases hretry
  next =>
    split at hretry
    next => cases hretry
    next u hexecute =>
      obtain ⟨hsessions, hhandedOver⟩ := execute_flows h hexecute
      split at hretry <;> cases hretry <;> exact h.leave hsessions (hnext _) hhandedOver

theorem Flows.tryDisarm (h : Flows definition s) {it : Nat} {succeeded : Bool}
    (hdisarm : s.tryDisarm it succeeded = some t) : Flows definition t := by
  unfold State.tryDisarm at hdisarm
  split at hdisarm
  next => cases hdisarm
  next => split at hdisarm <;> cases hdisarm <;> exact h.leave h.sessions rfl rfl

theorem Flows.advance (h : Flows definition s) (hadvance : s.advance = some t) : Flows definition t := by
  unfold State.advance at hadvance
  split at hadvance
  next =>
    cases hadvance
    exact h.leave h.sessions rfl rfl
  next =>
    cases hadvance
    exact h.leave h.sessions rfl rfl
  next =>
    split at hadvance <;> cases hadvance
    · exact h.leave h.sessions (breakIfAllFinished_pending _) rfl
    · exact h.leave h.sessions rfl rfl
  next =>
    split at hadvance
    next =>
      cases hadvance
      split
      next => exact h.leave h.sessions rfl rfl
      next => exact h.leave h.sessions (breakIfAllFinished_pending _) rfl
    next => cases hadvance
  next =>
    split at hadvance <;> cases hadvance
    exact h.leave h.sessions rfl rfl
  next => cases hadvance

theorem Flows.step (h : Flows definition s) (hstep : Pipeline.step definition s action = some t) :
    Flows definition t := by
  cases action with
  | complete pair =>
    simp only [Pipeline.step, State.complete] at hstep
    split at hstep <;> cases hstep
    exact ⟨h.sessions, h.pending, h.handedOver⟩
  | tryPull =>
    simp only [Pipeline.step] at hstep
    split at hstep <;> cases hstep
    exact h.tryPull
  | fetchResults outcome =>
    simp only [Pipeline.step] at hstep
    split at hstep
    next => exact h.fetchResults hstep
    next => cases hstep
  | setInputs outcome =>
    simp only [Pipeline.step] at hstep
    split at hstep
    next hlocation => exact h.setInputs hlocation hstep
    next => cases hstep
  | getReadySessions readySessions =>
    simp only [Pipeline.step] at hstep
    split at hstep
    next =>
      split at hstep <;> cases hstep
      exact h.leave h.sessions rfl rfl
    next => cases hstep
  | execute outcome =>
    simp only [Pipeline.step] at hstep
    split at hstep
    next => exact h.schedule hstep
    next => exact h.retry (fun _ => rfl) hstep
    next => exact h.retry (fun _ => rfl) hstep
    next => cases hstep
  | tryDisarm succeeded =>
    simp only [Pipeline.step] at hstep
    split at hstep
    next => exact h.tryDisarm hstep
    next => cases hstep
  | advance => exact h.advance hstep

theorem Flows.initial (hchecked : Checked definition) {entry : NodeInfo} (hentry : entry ∈ definition.nodeInfos)
    (hkind : entry.kind = .ENTRY) : Flows definition (Pipeline.initial definition entry.nodeName : State ε) := by
  refine ⟨?_, fun _ hm => absurd hm List.not_mem_nil, fun _ hm => absurd hm List.not_mem_nil⟩
  intro pair session hm
  obtain ⟨rfl, rfl⟩ := Prod.mk.inj (List.mem_singleton.mp hm)
  exact ⟨entry, hchecked.find hentry, .entry hentry hkind⟩

end Steps

section Validated

variable {inputs : NodeInputs} {node : NodeInfo → Except DefinitionStatus Unit}
  {connection : NodeInfo → NodeInfo → Aliases → Except DefinitionStatus Unit}

/-- The sessions of a definition that has passed its validation: nothing is thrown when they reach a node, whatever they
were split into; in a run of the loop it is these that are handed over; and when every demultiplexer splits each of its
sessions, each session gets all that it gathers and the exit has one session. -/
theorem validated_flow (hvalidated : Validated definition (inputs.checks definition node connection)) :
    (∀ splits, Sound definition splits) ∧
      (∀ shards, Splitting definition shards → Complete definition (exactly shards)) ∧
      ∀ entry ∈ definition.nodeInfos, entry.kind = .ENTRY → ∀ (actions : List (Action ε)) (s : State ε),
        run definition (fun _ => True) (initial definition entry.nodeName) actions = some s →
          ∀ handOver ∈ s.location.pending ++ s.history.handedOver, HandsOver definition handOver := by
  have hfed := hvalidated.fed
  obtain ⟨exit, order, levels, gathered, hchecked, _, _, hacyclic, hlevelled⟩ := hvalidated.levelled hfed
  refine ⟨fun splits => sound hchecked hlevelled splits, ?_, ?_⟩
  · exact fun shards hsplitting => complete hchecked hlevelled hacyclic hfed hsplitting
  · intro entry hentry hkind actions s hrun handOver hm
    have hflows : Flows definition s := by
      apply run_induction _ (Flows.initial hchecked hentry hkind) hrun
      exact fun _ _ _ h _ hstep => h.step hstep
    rcases List.mem_append.mp hm with hm | hm
    · exact hflows.pending handOver hm
    · exact hflows.handedOver handOver hm

/-- A pipeline that detects two faces and gathers what is said of each. -/
def faces : PipelineDefinition where
  nodeInfos := [⟨.ENTRY, "request", none, ∅⟩, ⟨.DL, "detector", some 2, ∅⟩, ⟨.DL, "classifier", none, ∅⟩,
    ⟨.EXIT, "response", none, {"detector"}⟩]
  connections := [("detector", [("request", [("image", "image")])]), ("classifier", [("detector", [("box", "box")])]),
    ("response", [("classifier", [("label", "label")])])]
  dependants_nodup := by decide
  dependencies_nodup := by decide

def facesInputs : NodeInputs where
  inputsInfo := fun node => if node.nodeName = "detector" then {"image"} else {"box"}
  nonempty := fun node _ => by split <;> exact Finset.singleton_nonempty _

theorem faces_validated : Validated faces (facesInputs.checks faces acceptsAll.node acceptsAll.connection) where
  nodes := by decide
  cycles := Loop.exits_of_iterate (show Loop.iterate _ 20 _ = _ by decide)
  order := Loop.exits_of_iterate (show Loop.iterate _ 20 _ = _ by decide)

theorem validated_flow_faces : (∀ splits, Sound faces splits) ∧ Complete faces (exactly fun _ _ => 2) := by
  obtain ⟨hsound, hcomplete, _⟩ := validated_flow (ε := String) faces_validated
  obtain ⟨_, _, _, _, hchecked, _, _, _, hlevelled⟩ := faces_validated.levelled faces_validated.fed
  refine ⟨hsound, hcomplete _ (splitting_of_counts hchecked hlevelled ?_)⟩
  intro node hm count hcount
  have hdetector : node = ⟨.DL, "detector", some 2, ∅⟩ := by
    simp only [faces, List.mem_cons, List.not_mem_nil, or_false] at hm
    obtain rfl | rfl | rfl | rfl := hm
    · cases hcount
    · rfl
    · cases hcount
    · cases hcount
  subst hdetector
  cases hcount
  exact ⟨by decide, fun _ => by decide⟩

end Validated

end ModelServer.SessionFlow
