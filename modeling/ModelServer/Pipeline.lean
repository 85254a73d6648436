import Mathlib.Data.Finset.Insert
import ModelServer.Demultiplexing
import ModelServer.PipelineDefinition
import ModelServer.SessionKeys

namespace ModelServer

/-- A node, by its name, and one of its sessions. -/
abbrev NodeSessionKeyPair := String × String

structure NodeSession where
  metadata : NodeSessionMetadata
  remainingDependencies : Nat
  isUsed : Bool := false
deriving DecidableEq

abbrev NodeSessions := List (NodeSessionKeyPair × NodeSession)

namespace NodeSession

def isReady (session : NodeSession) : Bool := !session.isUsed && session.remainingDependencies == 0

/-- The counter has 32 bits. -/
def notifyFinishedDependency (session : NodeSession) : NodeSession :=
  { session with
    remainingDependencies :=
      (session.remainingDependencies + (NodeSessionMetadata.sessionIdWord - 1)) % NodeSessionMetadata.sessionIdWord }

/-- The inputs are handed out, and the session is used. -/
def getInputs (session : NodeSession) : NodeSession := { session with isUsed := true }

/-- A session with its handler of inputs, which waits for every shard of every dependency. -/
def create (metadata : NodeSessionMetadata) (inputsCount : Nat) (collapsingDetails : CollapseDetails) : NodeSession where
  metadata := metadata
  remainingDependencies := collapsingDetails.collapsedSessionSizes.foldl
    (fun count size => count * size % NodeSessionMetadata.sessionIdWord) inputsCount

end NodeSession

namespace NodeSessions

/-- The session is changed. -/
def alter (sessions : NodeSessions) (pair : NodeSessionKeyPair) (f : NodeSession → NodeSession) : NodeSessions :=
  sessions.map fun (key, session) => (key, if key = pair then f session else session)

def erase (sessions : NodeSessions) (pair : NodeSessionKeyPair) : NodeSessions :=
  sessions.filter (decide <| ·.1 ≠ pair)

end NodeSessions

namespace Node

/-- `Node::getNodeSession`: the session that a session of a dependency belongs to, created where it is missing. -/
def getNodeSession (node : NodeInfo) (previous : Nat) (sessions : NodeSessions) (metadata : NodeSessionMetadata) :
    Except String (NodeSessionKeyPair × NodeSessions) :=
  match metadata.createSessionKey node.gatherFromNode with
  | .error message => .error message
  | .ok sessionKey =>
    if (sessions.lookup (node.nodeName, sessionKey)).isSome then .ok ((node.nodeName, sessionKey), sessions)
    else if node.gatherFromNode = ∅ then
      .ok ((node.nodeName, sessionKey),
        sessions ++ [((node.nodeName, sessionKey), NodeSession.create metadata previous ⟨[], []⟩)])
    else match metadata.getCollapsedSessionMetadata node.gatherFromNode with
      | .error message => .error message
      | .ok (newSessionMetadata, collapsingDetails) =>
        .ok ((node.nodeName, sessionKey),
          sessions ++ [((node.nodeName, sessionKey), NodeSession.create newSessionMetadata previous collapsingDetails)])

def getReadySessions (sessions : NodeSessions) (nodeName : String) : List NodeSessionKeyPair :=
  (sessions.filter fun (key, session) => key.1 = nodeName && session.isReady).map Prod.fst

/-- The sessions of the results of a session; the outputs of a demultiplexer have this many shards. -/
def resultSessions (node : NodeInfo) (metadata : NodeSessionMetadata) (shards : Nat) :
    Except String (List NodeSessionMetadata) :=
  if node.kind = .EXIT then .ok []
  else match node.demultiplyCount with
    | none => .ok [metadata]
    | some count =>
      if 0 < shards ∧ shards ≤ DEMULTIPLY_LIMIT ∧ (count = -1 ∨ (shards : Int) = count % 2 ^ 64) then
        metadata.generateSubsessions node.nodeName shards
      else .error "demultiplyOutputs"

end Node

namespace Pipeline

/-- What `Node::execute` answers: an inference is started, its stream id is not ready, or it failed, before or after
the inputs of the session were used. -/
inductive Outcome (ε : Type)
  | ok
  | notReady
  | failed (status : ε) (used : Bool)

/-- The deferred sessions after a session was tried. -/
def Outcome.defer {ε : Type} (outcome : Outcome ε) (deferred : List NodeSessionKeyPair) (pair : NodeSessionKeyPair) :
    List NodeSessionKeyPair :=
  match outcome with
  | .notReady => deferred ++ [pair]
  | _ => deferred

/-- What `Node::setInputs` answers for one session of a dependency: it is counted or it failed, before or after it was
counted. -/
inductive HandOver (ε : Type)
  | ok
  | failed (status : ε) (counted : Bool)

/-- Where `Pipeline::execute` is in its loop. -/
inductive Location (ε : Type)
  | pulling
  | fetching (finished : NodeSessionKeyPair)
  | feeding (finished : NodeSessionKeyPair) (nextNodes : List String) (handOvers : List (String × NodeSessionMetadata))
  | scheduling (nextNodes : List String) (readySessions tmpDeferredNodeSessions : List NodeSessionKeyPair)
  | retrying (it : Nat) (tmpDeferredNodeSessions : List NodeSessionKeyPair)
  | triggering (it : Nat) (tmpDeferredNodeSessions : List NodeSessionKeyPair)
  | disarming (it : Nat)
  | retryingAll (it : Nat)
  | left (status : Option ε)

/-- What has happened in a run. -/
structure History (ε : Type) where
  executed : List NodeSessionKeyPair := []
  started : List NodeSessionKeyPair := []
  processed : List NodeSessionKeyPair := []
  disarmed : List NodeSessionKeyPair := []
  fetched : List (NodeSessionKeyPair × List NodeSessionMetadata) := []
  handedOver : List (String × String × NodeSessionMetadata) := []
  errors : List ε := []

/-- The variables of `Pipeline::execute`, the sessions of the nodes and the inferences that are running. -/
structure State (ε : Type) where
  location : Location ε := .pulling
  finishedNodeQueue : List NodeSessionKeyPair
  firstErrorStatus : Option ε := none
  startedSessions : Finset String
  finishedSessions : Finset String := ∅
  deferredNodeSessions : List NodeSessionKeyPair := []
  nodeSessions : NodeSessions
  running : List NodeSessionKeyPair := []
  history : History ε

/-- What the nodes, the inferences and the order of the maps decide. -/
inductive Action (ε : Type)
  | complete (pair : NodeSessionKeyPair)
  | tryPull
  | fetchResults (outcome : Except ε (List NodeSessionMetadata))
  | setInputs (outcome : HandOver ε)
  | getReadySessions (readySessions : List NodeSessionKeyPair)
  | execute (outcome : Outcome ε)
  | tryDisarm (succeeded : Bool)
  | advance

/-- The text by which a session is counted. -/
def sessionName (pair : NodeSessionKeyPair) : String := pair.1 ++ pair.2

variable {ε : Type}

namespace State

def setFailIfNotFailEarlier (s : State ε) (status : ε) : State ε :=
  { s with
    firstErrorStatus := s.firstErrorStatus.or (some status)
    history := { s.history with errors := s.history.errors ++ [status] } }

/-- Leaves the loop when all sessions that were started are finished. -/
def breakIfAllFinished (s : State ε) : State ε :=
  { s with
    location :=
      if s.finishedSessions.card = s.startedSessions.card then .left s.firstErrorStatus else .pulling }

def push (s : State ε) (pair : NodeSessionKeyPair) : State ε :=
  { s with finishedNodeQueue := s.finishedNodeQueue ++ [pair] }

/-- `Node::execute` has been called, and the inputs of the session were used or not. -/
def call (s : State ε) (pair : NodeSessionKeyPair) (used : Bool) : State ε :=
  { s with
    nodeSessions := if used then s.nodeSessions.alter pair NodeSession.getInputs else s.nodeSessions
    history := { s.history with executed := s.history.executed ++ [pair] } }

/-- `Node::execute` has answered that all is well. -/
def start (s : State ε) (pair : NodeSessionKeyPair) : State ε :=
  { s with history := { s.history with started := s.history.started ++ [pair] } }

def run (s : State ε) (pair : NodeSessionKeyPair) : State ε :=
  { s with running := s.running ++ [pair] }

/-- `Node::execute`. The entry and the exit only announce themselves, a custom node has finished when it answers, and
an inference finishes later. -/
def execute (s : State ε) (kind : NodeKind) (pair : NodeSessionKeyPair) : Outcome ε → Option (State ε)
  | .ok =>
    match kind with
    | .ENTRY | .EXIT => some (((s.call pair false).push pair).start pair)
    | .CUSTOM => some (((s.call pair true).push pair).start pair)
    | .DL => some (((s.call pair true).run pair).start pair)
  | .notReady =>
    match kind with
    | .DL => some (s.call pair true)
    | _ => none
  | .failed status used =>
    match kind with
    | .DL => some (((s.call pair used).push pair).setFailIfNotFailEarlier status)
    | .CUSTOM => some (((s.call pair true).push pair).setFailIfNotFailEarlier status)
    | _ => none

/-- A completion callback is called. -/
def complete (s : State ε) (pair : NodeSessionKeyPair) : Option (State ε) :=
  if pair ∈ s.running then some ({ s with running := s.running.erase pair }.push pair) else none

def tryPull (s : State ε) : State ε :=
  match s.finishedNodeQueue with
  | finished :: rest =>
    let s := { s with
      finishedNodeQueue := rest
      finishedSessions := insert (sessionName finished) s.finishedSessions
      history := { s.history with processed := s.history.processed ++ [finished] } }
    match s.firstErrorStatus with
    | some _ => s.breakIfAllFinished
    | none => { s with location := .fetching finished }
  | [] =>
    match s.firstErrorStatus with
    | some _ => { s with location := .disarming 0 }
    | none => { s with location := .retryingAll 0 }

end State

section Steps

variable (definition : PipelineDefinition)

/-- The nodes that have a node among their dependencies. -/
def getNextNodes (nodeName : String) : List String :=
  (definition.connections.filter fun connection => nodeName ∈ connection.2.map Prod.fst).map Prod.fst

def kindOf (nodeName : String) : NodeKind := ((definition.findNodeByName nodeName).map (·.kind)).getD .ENTRY

namespace State

/-- `Node::fetchResults`; the session is erased when it was there. -/
def fetchResults (s : State ε) (finished : NodeSessionKeyPair) : Except ε (List NodeSessionMetadata) → Option (State ε)
  | .error status =>
    let s := { s with nodeSessions := s.nodeSessions.erase finished }.setFailIfNotFailEarlier status
    some s.breakIfAllFinished
  | .ok results =>
    match definition.findNodeByName finished.1, s.nodeSessions.lookup finished with
    | some node, some session =>
      match Node.resultSessions node session.metadata results.length with
      | .error _ => none
      | .ok sessions =>
        if results.Perm sessions then some { s with
          nodeSessions := s.nodeSessions.erase finished
          location := .feeding finished (getNextNodes definition finished.1)
            ((getNextNodes definition finished.1).flatMap fun nextNode => results.map (nextNode, ·))
          history := { s.history with fetched := s.history.fetched ++ [(finished, results)] } }
        else none
    | _, _ => none

/-- A session of a dependency is counted. -/
def notify (s : State ε) (dependency : String) (pair : NodeSessionKeyPair) (metadata : NodeSessionMetadata) : State ε :=
  { s with
    nodeSessions := s.nodeSessions.alter pair NodeSession.notifyFinishedDependency
    history := { s.history with handedOver := s.history.handedOver ++ [(dependency, pair.1, metadata)] } }

/-- `Node::setInputs` for one session of a dependency. -/
def setInputs (s : State ε) (finished : NodeSessionKeyPair) (nextNodes : List String) (nextNode : String)
    (metadata : NodeSessionMetadata) (handOvers : List (String × NodeSessionMetadata)) :
    HandOver ε → Option (State ε)
  | .ok =>
    match (definition.findNodeByName nextNode).map fun node =>
        Node.getNodeSession node (definition.connectedTo nextNode).length s.nodeSessions metadata with
    | some (.ok (pair, sessions)) =>
      let s := { s with nodeSessions := sessions }.notify finished.1 pair metadata
      some { s with location := .feeding finished nextNodes handOvers }
    | _ => none
  | .failed status counted =>
    match (definition.findNodeByName nextNode).map fun node =>
        Node.getNodeSession node (definition.connectedTo nextNode).length s.nodeSessions metadata with
    | some (.ok (pair, sessions)) =>
      let s := { s with nodeSessions := sessions }
      let s := (if counted then s.notify finished.1 pair metadata else s).setFailIfNotFailEarlier status
      some { s with location := .scheduling nextNodes [] [] }
    | _ =>
      let s := s.setFailIfNotFailEarlier status
      some { s with location := .scheduling nextNodes [] [] }

/-- A session that is ready is tried; after an error the other sessions of its node are not. -/
def schedule (s : State ε) (nextNodes : List String) (pair : NodeSessionKeyPair)
    (readySessions tmpDeferredNodeSessions : List NodeSessionKeyPair) (outcome : Outcome ε) : Option (State ε) :=
  let s := { s with startedSessions := insert (sessionName pair) s.startedSessions }
  match s.execute (kindOf definition pair.1) pair outcome with
  | none => none
  | some s => some { s with
      location := .scheduling nextNodes (if s.firstErrorStatus.isSome then [] else readySessions)
        (outcome.defer tmpDeferredNodeSessions pair) }

/-- A deferred session is tried again. -/
def retry (s : State ε) (next : Nat → Location ε) (it : Nat) (outcome : Outcome ε) : Option (State ε) :=
  match s.deferredNodeSessions[it]? with
  | none => none
  | some pair =>
    match s.execute (kindOf definition pair.1) pair outcome with
    | none => none
    | some s =>
      match outcome with
      | .ok => some { s with
          deferredNodeSessions := s.deferredNodeSessions.eraseIdx it
          location := next it }
      | _ => some { s with location := next (it + 1) }

def tryDisarm (s : State ε) (it : Nat) (succeeded : Bool) : Option (State ε) :=
  match s.deferredNodeSessions[it]? with
  | none => none
  | some pair =>
    if succeeded then some { s with
      finishedSessions := insert (sessionName pair) s.finishedSessions
      deferredNodeSessions := s.deferredNodeSessions.eraseIdx it
      location := .disarming it
      history := { s.history with disarmed := s.history.disarmed ++ [pair] } }
    else some { s with location := .disarming (it + 1) }

/-- The loops that have come to their end. -/
def advance (s : State ε) : Option (State ε) :=
  match s.location with
  | .feeding _ nextNodes [] => some { s with location := .scheduling nextNodes [] [] }
  | .scheduling [] [] tmpDeferredNodeSessions => some { s with location := .retrying 0 tmpDeferredNodeSessions }
  | .retrying it tmpDeferredNodeSessions =>
    if s.deferredNodeSessions.length ≤ it ∨ s.finishedNodeQueue ≠ [] then
      let s := { s with deferredNodeSessions := s.deferredNodeSessions ++ tmpDeferredNodeSessions }
      some s.breakIfAllFinished
    else some { s with location := .triggering it tmpDeferredNodeSessions }
  | .disarming it =>
    if s.deferredNodeSessions.length ≤ it then
      some (if s.deferredNodeSessions ≠ [] then { s with location := .pulling } else s.breakIfAllFinished)
    else none
  | .retryingAll it =>
    if s.deferredNodeSessions.length ≤ it then some { s with location := .pulling } else none
  | _ => none

end State

/-- One step of a run. -/
def step (s : State ε) : Action ε → Option (State ε)
  | .complete pair => s.complete pair
  | .tryPull =>
    match s.location with
    | .pulling => some s.tryPull
    | _ => none
  | .fetchResults outcome =>
    match s.location with
    | .fetching finished => s.fetchResults definition finished outcome
    | _ => none
  | .setInputs outcome =>
    match s.location with
    | .feeding finished nextNodes ((nextNode, metadata) :: handOvers) =>
      s.setInputs definition finished nextNodes nextNode metadata handOvers outcome
    | _ => none
  | .getReadySessions readySessions =>
    match s.location with
    | .scheduling (nextNode :: nextNodes) [] tmpDeferredNodeSessions =>
      if readySessions.Perm (Node.getReadySessions s.nodeSessions nextNode) then
        some { s with location := .scheduling nextNodes readySessions tmpDeferredNodeSessions }
      else none
    | _ => none
  | .execute outcome =>
    match s.location with
    | .scheduling nextNodes (pair :: readySessions) tmpDeferredNodeSessions =>
      s.schedule definition nextNodes pair readySessions tmpDeferredNodeSessions outcome
    | .triggering it tmpDeferredNodeSessions => s.retry definition (.retrying · tmpDeferredNodeSessions) it outcome
    | .retryingAll it => s.retry definition .retryingAll it outcome
    | _ => none
  | .tryDisarm succeeded =>
    match s.location with
    | .disarming it => s.tryDisarm it succeeded
    | _ => none
  | .advance => s.advance

/-- The loop is entered with the event of the entry. -/
def initial (entry : String) : State ε where
  finishedNodeQueue := [(entry, "")]
  startedSessions := {sessionName (entry, "")}
  nodeSessions := [((entry, ""), NodeSession.create {} (definition.connectedTo entry).length ⟨[], []⟩)]
  history := {
    executed := [(entry, "")]
    started := [(entry, "")] }

end Steps

end Pipeline

end ModelServer
