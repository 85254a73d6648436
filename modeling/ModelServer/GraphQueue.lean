import ModelServer.StreamIdGuards

/-! The queue of graphs, which stay running from one request to the next, and the executors that use them. -/

namespace ModelServer.GraphQueue

def STARTING_TIMESTAMP_VALUE : Int := 0

/-- `mediapipe::CalculatorGraph`. -/
structure CalculatorGraph (κ : Type) where
  /-- Whether `StartRun` succeeded. -/
  running : Bool := true
  error : Bool := false
  /-- Whose input packets are being processed, or wait to be. -/
  inFlight : List κ := []
  /-- Whose input packets were added, each with its timestamp. -/
  added : List (κ × Int) := []

structure GraphHelper (κ : Type) where
  graph : CalculatorGraph κ := {}
  /-- Whose functor observes an output stream, `none` for the `NullOutputStreamObserver`. -/
  outStreamObservers : String → Option κ := fun _ => none
  /-- For whom the execution context of a node was created. -/
  genAiExecutionContextMap : String → Option κ := fun _ => none
  currentTimestamp : Int := STARTING_TIMESTAMP_VALUE
  /-- The output packets so far: whose input packet each came of, and whose observer handled it. -/
  handled : List (κ × Option κ) := []
  /-- The reads of the execution contexts so far: for whose input packet, and whose context it was. -/
  reads : List (κ × Option κ) := []

structure GraphDefinition where
  outputNames : List String
  inputNames : List String
  /-- The nodes of `genAiServableMap`. -/
  genAiNodes : List String

structure Request where
  streaming : Bool
  hasInputSidePackets : Bool
  /-- Whether the frontend takes the timestamp from the request or from the clock. -/
  setsTimestamp : Bool

/-- How far an executor has got while it has the guard of the graph. -/
inductive Call
  | constructed
  /-- In `initializeLlmExecutionContexts`. -/
  | initializingContexts (todo : List String)
  | replacingObservers (todo : List String)
  /-- In `createAndPushPacketsImpl`, before the first packet. -/
  | stamping
  | pushing (numberOfPacketsCreated : Nat)
  /-- In `waitForNewRequest`. -/
  | reading
  /-- In `WaitUntilIdle`. -/
  | waiting
  /-- In `resetLlmExecutionContexts`. -/
  | resettingContexts (ok : Bool) (todo : List String)
  /-- In `reinitialize`, up to the end of `WaitUntilDone`. -/
  | closing
  | nullingObservers (todo : List String)
  | droppingContexts (todo : List String)
  | initializing
  | ended (ok : Bool)
deriving DecidableEq

/-- How a step of an executor turns out. -/
inductive Event
  | proceeds
  | fails
  /-- There are no more packets, or no more requests. -/
  | stops
  /-- The frontend finds this timestamp. -/
  | stamps (timestamp : Int)
  | throws
deriving DecidableEq

/-- What a graph does by itself. -/
inductive GraphEvent (κ : Type)
  /-- A packet that came of an input packet reaches an observed output stream. -/
  | emits (owner : κ) (stream : String)
  /-- A node reads its execution context for an input packet. -/
  | readsContext (owner : κ) (node : String)
  | finishes (owner : κ)
  | errs

variable {κ : Type}

namespace GraphHelper

variable (h : GraphHelper κ)

def setContext (node : String) (owner : Option κ) : GraphHelper κ :=
  { h with genAiExecutionContextMap := Function.update h.genAiExecutionContextMap node owner }

def setObserver (name : String) (owner : Option κ) : GraphHelper κ :=
  { h with outStreamObservers := Function.update h.outStreamObservers name owner }

/-- `AddPacketToInputStream` at the current timestamp. -/
def addPacket (owner : κ) : GraphHelper κ :=
  { h with graph := { h.graph with
      inFlight := h.graph.inFlight ++ [owner]
      added := h.graph.added ++ [(owner, h.currentTimestamp)] } }

/-- `initialize` makes a new graph, and `StartRun` succeeds or not. -/
def initializeGraph (running : Bool) : GraphHelper κ :=
  { h with graph := { running := running }, currentTimestamp := STARTING_TIMESTAMP_VALUE }

end GraphHelper

namespace GraphDefinition

variable (definition : GraphDefinition)

def constructed (request : Request) (h : GraphHelper κ) : Call × GraphHelper κ :=
  (if request.hasInputSidePackets then .ended false else .initializingContexts definition.genAiNodes, h)

def initializeContext (client : κ) (todo : List String) (h : GraphHelper κ) (event : Event) : Call × GraphHelper κ :=
  match todo with
  | [] => (.replacingObservers definition.outputNames, h)
  | node :: todo =>
    match event with
    | .proceeds => (.initializingContexts todo, h.setContext node (some client))
    | _ => (.ended false, h)

def replaceObserver (client : κ) (todo : List String) (h : GraphHelper κ) : Call × GraphHelper κ :=
  match todo with
  | [] => (.stamping, h)
  | name :: todo =>
    if name = "" then (.ended false, h) else (.replacingObservers todo, h.setObserver name (some client))

/-- Where an executor goes on when a request could not be pushed: the error is sent to the client of a stream. -/
def pushFailed (request : Request) : Call := if request.streaming then .reading else .closing

def stamp (request : Request) (h : GraphHelper κ) (event : Event) : Call × GraphHelper κ :=
  match event with
  | .proceeds => (.pushing 0, h)
  | .stamps timestamp => (.pushing 0, if request.setsTimestamp then { h with currentTimestamp := timestamp } else h)
  | .fails | .stops => (pushFailed request, h)
  | .throws => (.closing, h)

def push (client : κ) (request : Request) (numberOfPacketsCreated : Nat) (h : GraphHelper κ) (event : Event) :
    Option (Call × GraphHelper κ) :=
  match event with
  | .proceeds =>
    if h.graph.running && !h.graph.error then some (.pushing (numberOfPacketsCreated + 1), h.addPacket client) else none
  | .fails => some (pushFailed request, h)
  | .stops =>
    if request.streaming then some (.reading, h)
    else if definition.inputNames.length > numberOfPacketsCreated then some (.closing, h)
    else some (.waiting, h)
  | .throws => some (.closing, h)
  | .stamps _ => none

/-- The read loop: a request that is valid, one that is not, or the end, also after an error of the graph. -/
def read (h : GraphHelper κ) (event : Event) : Call × GraphHelper κ :=
  match event with
  | .proceeds => (.stamping, h)
  | .fails | .stamps _ => (.reading, h)
  | .stops => (.waiting, h)
  | .throws => (.closing, h)

def waitUntilIdle (h : GraphHelper κ) (event : Event) : Option (Call × GraphHelper κ) :=
  match event with
  | .proceeds =>
    if h.graph.inFlight.isEmpty && h.graph.running && !h.graph.error then
      some (.resettingContexts true definition.genAiNodes, h)
    else none
  | .fails => if h.graph.error || !h.graph.running then some (.resettingContexts false definition.genAiNodes, h) else none
  | .throws => some (.closing, h)
  | .stops | .stamps _ => none

/-- After the contexts the guard is dismissed and the timestamp incremented, or the graph is reinitialized. -/
def resetContext (ok : Bool) (todo : List String) (h : GraphHelper κ) : Call × GraphHelper κ :=
  match todo with
  | [] =>
    if ok then (.ended true, { h with currentTimestamp := h.currentTimestamp + 1 }) else (.closing, h)
  | node :: todo => (.resettingContexts ok todo, h.setContext node none)

/-- `CloseAllPacketSources` and `WaitUntilDone`. -/
def close (h : GraphHelper κ) : Option (Call × GraphHelper κ) :=
  if h.graph.inFlight.isEmpty then some (.nullingObservers definition.outputNames, h) else none

def nullObserver (todo : List String) (h : GraphHelper κ) : Call × GraphHelper κ :=
  match todo with
  | [] => (.droppingContexts definition.genAiNodes, h)
  | name :: todo => (.nullingObservers todo, h.setObserver name none)

def dropContext (todo : List String) (h : GraphHelper κ) : Call × GraphHelper κ :=
  match todo with
  | [] => (.initializing, h)
  | node :: todo => (.droppingContexts todo, h.setContext node none)

/-- The next step of `inferWithQueue` or of `inferStreamWithQueue`. -/
def next (request : κ → Request) (client : κ) (call : Call) (h : GraphHelper κ) (event : Event) :
    Option (Call × GraphHelper κ) :=
  match call with
  | .constructed => some (definition.constructed (request client) h)
  | .initializingContexts todo => some (definition.initializeContext client todo h event)
  | .replacingObservers todo => some (replaceObserver client todo h)
  | .stamping => some (stamp (request client) h event)
  | .pushing numberOfPacketsCreated => definition.push client (request client) numberOfPacketsCreated h event
  | .reading => some (read h event)
  | .waiting => definition.waitUntilIdle h event
  | .resettingContexts ok todo => some (resetContext ok todo h)
  | .closing => definition.close h
  | .nullingObservers todo => some (definition.nullObserver todo h)
  | .droppingContexts todo => some (dropContext todo h)
  | .initializing => some (.ended false, h.initializeGraph (event = .proceeds))
  | .ended _ => none

/-- A step of the graph. A packet is handled by the observer its stream has at that moment. -/
def alone [DecidableEq κ] (h : GraphHelper κ) : GraphEvent κ → Option (GraphHelper κ)
  | .emits owner stream =>
    if owner ∈ h.graph.inFlight ∧ stream ∈ definition.outputNames then
      some { h with handled := h.handled ++ [(owner, h.outStreamObservers stream)] }
    else none
  | .readsContext owner node =>
    if owner ∈ h.graph.inFlight ∧ node ∈ definition.genAiNodes then
      some { h with reads := h.reads ++ [(owner, h.genAiExecutionContextMap node)] }
    else none
  | .finishes owner => some { h with graph := { h.graph with inFlight := h.graph.inFlight.erase owner } }
  | .errs => if h.graph.inFlight.isEmpty then none else some { h with graph := { h.graph with error := true } }

def Call.hasEnded : Call → Bool
  | .ended _ => true
  | _ => false

def body [DecidableEq κ] (request : κ → Request) : StreamIdGuard.Body κ (GraphHelper κ) Call Event (GraphEvent κ) where
  begins := .constructed
  next := definition.next request
  alone := definition.alone
  ends := Call.hasEnded

/-- No request has a timestamp of its own, as over HTTP. -/
def Unstamped (request : κ → Request) : Prop := ∀ client, (request client).setsTimestamp = false

/-- What has passed through a graph so far went to the request it came of. -/
structure Apart (request : κ → Request) (h : GraphHelper κ) : Prop where
  handled : ∀ entry ∈ h.handled, entry.2 = some entry.1
  reads : ∀ entry ∈ h.reads, entry.2 = none ∨ entry.2 = some entry.1
  added : Unstamped request → h.graph.added.Pairwise fun earlier later => earlier.1 = later.1 ∨ earlier.2 < later.2

/-- A graph in the queue. -/
structure Idle (request : κ → Request) (h : GraphHelper κ) : Prop extends Apart request h where
  inFlight : h.graph.inFlight = []
  past : Unstamped request → ∀ entry ∈ h.graph.added, entry.2 < h.currentTimestamp

/-- A graph that works for this client only. -/
structure Serves (request : κ → Request) (client : κ) (h : GraphHelper κ) : Prop extends Apart request h where
  inFlight : ∀ owner ∈ h.graph.inFlight, owner = client
  contexts : ∀ node ∈ definition.genAiNodes, h.genAiExecutionContextMap node = none ∨ h.genAiExecutionContextMap node = some client
  observers : ∀ name ∈ definition.outputNames, h.outStreamObservers name = some client
  past : Unstamped request → ∀ entry ∈ h.graph.added,
    entry.2 < h.currentTimestamp ∨ entry.1 = client ∧ entry.2 = h.currentTimestamp

/-- What holds of a graph at each step of the executor that has it. -/
def Holds (request : κ → Request) (client : κ) (call : Call) (h : GraphHelper κ) : Prop :=
  match call with
  | .constructed | .ended _ => Idle request h
  | .initializingContexts todo => Idle request h ∧
    ∀ node ∈ definition.genAiNodes, node ∈ todo ∨ h.genAiExecutionContextMap node = some client
  | .replacingObservers todo => Idle request h ∧
    (∀ node ∈ definition.genAiNodes, h.genAiExecutionContextMap node = some client) ∧
    ∀ name ∈ definition.outputNames, name ∈ todo ∨ h.outStreamObservers name = some client
  | .stamping | .pushing _ | .reading | .waiting | .closing => definition.Serves request client h
  | .resettingContexts ok _ => definition.Serves request client h ∧ (ok = true → h.graph.inFlight = [])
  | .nullingObservers _ | .droppingContexts _ | .initializing => Apart request h ∧ h.graph.inFlight = []

variable {definition} {request : κ → Request} {client : κ} {h h' : GraphHelper κ}

section Alone

variable [DecidableEq κ] {event : GraphEvent κ}

/-- A graph without packets does nothing. -/
theorem alone_eq (hempty : h.graph.inFlight = []) (halone : definition.alone h event = some h') : h' = h := by
  unfold alone at halone
  split at halone
  next =>
    rw [hempty, if_neg fun hmem => List.not_mem_nil hmem.1] at halone
    cases halone
  next =>
    rw [hempty, if_neg fun hmem => List.not_mem_nil hmem.1] at halone
    cases halone
  next =>
    rw [hempty, List.erase_nil] at halone
    rw [← Option.some.inj halone, ← hempty]
  next =>
    rw [hempty] at halone
    cases halone

theorem Serves.alone (hserves : definition.Serves request client h) (halone : definition.alone h event = some h') :
    definition.Serves request client h' := by
  unfold GraphDefinition.alone at halone
  split at halone
  next owner stream =>
    split at halone
    next hmem =>
      cases Option.some.inj halone
      refine { hserves with handled := fun entry hentry => ?_ }
      rcases List.mem_append.mp hentry with hold | hnew
      · exact hserves.handled entry hold
      · rw [List.mem_singleton.mp hnew, hserves.observers stream hmem.2, hserves.inFlight owner hmem.1]
    next => cases halone
  next owner node =>
    split at halone
    next hmem =>
      cases Option.some.inj halone
      refine { hserves with reads := fun entry hentry => ?_ }
      rcases List.mem_append.mp hentry with hold | hnew
      · exact hserves.reads entry hold
      · rw [List.mem_singleton.mp hnew, hserves.inFlight owner hmem.1]
        exact hserves.contexts node hmem.2
    next => cases halone
  next owner =>
    cases Option.some.inj halone
    exact { hserves with inFlight := fun other hother => hserves.inFlight other (List.mem_of_mem_erase hother) }
  next =>
    split at halone
    next => cases halone
    next =>
      cases Option.some.inj halone
      exact { hserves with }

theorem Holds.alone {call : Call} (hholds : definition.Holds request client call h)
    (halone : definition.alone h event = some h') : definition.Holds request client call h' := by
  cases call with
  | constructed | ended => exact alone_eq hholds.inFlight halone ▸ hholds
  | initializingContexts | replacingObservers => exact alone_eq hholds.1.inFlight halone ▸ hholds
  | stamping | pushing | reading | waiting | closing => exact Serves.alone hholds halone
  | resettingContexts ok =>
    cases ok with
    | true => exact alone_eq (hholds.2 rfl) halone ▸ hholds
    | false => exact ⟨hholds.1.alone halone, fun hok => by cases hok⟩
  | nullingObservers | droppingContexts | initializing => exact alone_eq hholds.2 halone ▸ hholds

end Alone

theorem Idle.setContext (hidle : Idle request h) (node : String) (owner : Option κ) : Idle request (h.setContext node owner) :=
  { hidle with }

theorem Holds.initializeContext {todo : List String} (event : Event)
    (hholds : definition.Holds request client (.initializingContexts todo) h) :
    definition.Holds request client (definition.initializeContext client todo h event).1
      (definition.initializeContext client todo h event).2 := by
  obtain ⟨hidle, hcontexts⟩ := hholds
  unfold GraphDefinition.initializeContext
  split
  next =>
    exact ⟨hidle, fun node hnode => (hcontexts node hnode).resolve_left List.not_mem_nil, fun name hname => Or.inl hname⟩
  next node todo =>
    split
    next =>
      refine ⟨hidle.setContext node (some client), fun other hother => ?_⟩
      by_cases heq : other = node
      · exact Or.inr (heq ▸ Function.update_self _ _ _)
      · refine (hcontexts other hother).imp (fun hmem => (List.mem_cons.mp hmem).resolve_left heq) fun hsome => ?_
        exact (Function.update_of_ne heq _ _).trans hsome
    next => exact hidle

theorem Holds.replaceObserver {todo : List String} (hholds : definition.Holds request client (.replacingObservers todo) h) :
    definition.Holds request client (GraphDefinition.replaceObserver client todo h).1
      (GraphDefinition.replaceObserver client todo h).2 := by
  obtain ⟨hidle, hcontexts, hobservers⟩ := hholds
  unfold GraphDefinition.replaceObserver
  split
  next =>
    exact {
      toApart := hidle.toApart
      inFlight := fun owner howner => absurd howner (hidle.inFlight ▸ List.not_mem_nil)
      contexts := fun node hnode => Or.inr (hcontexts node hnode)
      observers := fun name hname => (hobservers name hname).resolve_left List.not_mem_nil
      past := fun hunstamped entry hentry => Or.inl (hidle.past hunstamped entry hentry) }
  next name todo =>
    split
    next => exact hidle
    next =>
      refine ⟨{ hidle with }, hcontexts, fun other hother => ?_⟩
      by_cases heq : other = name
      · exact Or.inr (heq ▸ Function.update_self _ _ _)
      · refine (hobservers other hother).imp (fun hmem => (List.mem_cons.mp hmem).resolve_left heq) fun hsome => ?_
        exact (Function.update_of_ne heq _ _).trans hsome

theorem Serves.pushFailed (hserves : definition.Serves request client h) :
    definition.Holds request client (pushFailed (request client)) h := by
  unfold GraphDefinition.pushFailed
  split
  next => exact hserves
  next => exact hserves

theorem Serves.stamp (event : Event) (hserves : definition.Serves request client h) :
    definition.Holds request client (stamp (request client) h event).1 (stamp (request client) h event).2 := by
  unfold GraphDefinition.stamp
  split
  next => exact hserves
  next timestamp =>
    split
    next hsets =>
      exact { hserves with past := fun hunstamped => absurd (hunstamped client) (by rw [hsets]; exact fun heq => by cases heq) }
    next => exact hserves
  next => exact hserves.pushFailed
  next => exact hserves.pushFailed
  next => exact hserves

theorem Serves.addPacket (hserves : definition.Serves request client h) : definition.Serves request client (h.addPacket client) where
  handled := hserves.handled
  reads := hserves.reads
  added := fun hunstamped => by
    refine List.pairwise_append.mpr ⟨hserves.added hunstamped, List.pairwise_singleton _ _, fun earlier hearlier later hlater => ?_⟩
    rw [List.mem_singleton.mp hlater]
    exact (hserves.past hunstamped earlier hearlier).symm.imp And.left id
  inFlight := fun owner howner => (List.mem_append.mp howner).elim (hserves.inFlight owner) List.mem_singleton.mp
  contexts := hserves.contexts
  observers := hserves.observers
  past := fun hunstamped entry hentry => by
    rcases List.mem_append.mp hentry with hold | hnew
    · exact hserves.past hunstamped entry hold
    · rw [List.mem_singleton.mp hnew]
      exact Or.inr ⟨rfl, rfl⟩

theorem Serves.push {event : Event} {numberOfPacketsCreated : Nat} {call' : Call} (hserves : definition.Serves request client h)
    (hnext : definition.push client (request client) numberOfPacketsCreated h event = some (call', h')) :
    definition.Holds request client call' h' := by
  unfold GraphDefinition.push at hnext
  split at hnext
  next =>
    split at hnext
    next =>
      cases Option.some.inj hnext
      exact hserves.addPacket
    next => cases hnext
  next =>
    cases Option.some.inj hnext
    exact hserves.pushFailed
  next =>
    split at hnext
    next =>
      cases Option.some.inj hnext
      exact hserves
    next =>
      split at hnext
      next =>
        cases Option.some.inj hnext
        exact hserves
      next =>
        cases Option.some.inj hnext
        exact hserves
  next =>
    cases Option.some.inj hnext
    exact hserves
  next => cases hnext

theorem Serves.read (event : Event) (hserves : definition.Serves request client h) :
    definition.Holds request client (read h event).1 (read h event).2 := by
  unfold GraphDefinition.read
  cases event <;> exact hserves

theorem Serves.waitUntilIdle {event : Event} {call' : Call} (hserves : definition.Serves request client h)
    (hnext : definition.waitUntilIdle h event = some (call', h')) : definition.Holds request client call' h' := by
  unfold GraphDefinition.waitUntilIdle at hnext
  split at hnext
  next =>
    split at hnext
    next hidle =>
      cases Option.some.inj hnext
      refine ⟨hserves, fun _ => List.isEmpty_iff.mp ?_⟩
      rw [Bool.and_eq_true, Bool.and_eq_true] at hidle
      exact hidle.1.1
    next => cases hnext
  next =>
    split at hnext
    next =>
      cases Option.some.inj hnext
      exact ⟨hserves, fun hok => by cases hok⟩
    next => cases hnext
  next =>
    cases Option.some.inj hnext
    exact hserves
  next => cases hnext
  next => cases hnext

theorem Holds.resetContext {ok : Bool} {todo : List String}
    (hholds : definition.Holds request client (.resettingContexts ok todo) h) :
    definition.Holds request client (resetContext ok todo h).1 (resetContext ok todo h).2 := by
  obtain ⟨hserves, hempty⟩ := hholds
  unfold GraphDefinition.resetContext
  split
  next =>
    split
    next hok =>
      refine { hserves with inFlight := hempty hok, past := fun hunstamped entry hentry => ?_ }
      show entry.2 < h.currentTimestamp + 1
      have hpast := hserves.past hunstamped entry hentry
      omega
    next => exact hserves
  next node todo =>
    refine ⟨{ hserves with contexts := fun other hother => ?_ }, hempty⟩
    by_cases heq : other = node
    · exact Or.inl (heq ▸ Function.update_self _ _ _)
    · have hsame : (h.setContext node none).genAiExecutionContextMap other = h.genAiExecutionContextMap other :=
        Function.update_of_ne heq _ _
      rw [hsame]
      exact hserves.contexts other hother

theorem Serves.close {call' : Call} (hserves : definition.Serves request client h)
    (hnext : definition.close h = some (call', h')) : definition.Holds request client call' h' := by
  unfold GraphDefinition.close at hnext
  split at hnext
  next hempty =>
    cases Option.some.inj hnext
    exact ⟨hserves.toApart, List.isEmpty_iff.mp hempty⟩
  next => cases hnext

variable (definition client) in
theorem Apart.nullObserver (todo : List String) (hapart : Apart request h) (hempty : h.graph.inFlight = []) :
    definition.Holds request client (definition.nullObserver todo h).1 (definition.nullObserver todo h).2 := by
  cases todo with
  | nil => exact ⟨hapart, hempty⟩
  | cons name todo => exact ⟨{ hapart with }, hempty⟩

variable (definition client) in
theorem Apart.dropContext (todo : List String) (hapart : Apart request h) (hempty : h.graph.inFlight = []) :
    definition.Holds request client (dropContext todo h).1 (dropContext todo h).2 := by
  cases todo with
  | nil => exact ⟨hapart, hempty⟩
  | cons node todo => exact ⟨{ hapart with }, hempty⟩

theorem Apart.initializeGraph (hapart : Apart request h) (running : Bool) : Idle request (h.initializeGraph running) where
  handled := hapart.handled
  reads := hapart.reads
  added := fun _ => List.Pairwise.nil
  inFlight := rfl
  past := fun _ _ hnone => absurd hnone List.not_mem_nil

theorem Holds.next {call call' : Call} {event : Event} (hholds : definition.Holds request client call h)
    (hnext : definition.next request client call h event = some (call', h')) : definition.Holds request client call' h' := by
  unfold GraphDefinition.next at hnext
  split at hnext
  next =>
    unfold GraphDefinition.constructed at hnext
    cases Option.some.inj hnext
    split
    next => exact hholds
    next => exact ⟨hholds, fun node hnode => Or.inl hnode⟩
  next todo =>
    have hstep := hholds.initializeContext event
    rw [Option.some.inj hnext] at hstep
    exact hstep
  next todo =>
    have hstep := hholds.replaceObserver
    rw [Option.some.inj hnext] at hstep
    exact hstep
  next =>
    have hstep := Serves.stamp event hholds
    rw [Option.some.inj hnext] at hstep
    exact hstep
  next => exact Serves.push hholds hnext
  next =>
    have hstep := Serves.read event hholds
    rw [Option.some.inj hnext] at hstep
    exact hstep
  next => exact Serves.waitUntilIdle hholds hnext
  next ok todo =>
    have hstep := hholds.resetContext
    rw [Option.some.inj hnext] at hstep
    exact hstep
  next => exact Serves.close hholds hnext
  next todo =>
    have hstep := hholds.1.nullObserver definition client todo hholds.2
    rw [Option.some.inj hnext] at hstep
    exact hstep
  next todo =>
    have hstep := hholds.1.dropContext definition client todo hholds.2
    rw [Option.some.inj hnext] at hstep
    exact hstep
  next =>
    cases Option.some.inj hnext
    exact hholds.1.initializeGraph _
  next => cases hnext

theorem Holds.apart {call : Call} (hholds : definition.Holds request client call h) : Apart request h := by
  cases call with
  | constructed | ended => exact hholds.toApart
  | initializingContexts | replacingObservers => exact hholds.1.toApart
  | stamping | pushing | reading | waiting | closing => exact Serves.toApart hholds
  | resettingContexts => exact hholds.1.toApart
  | nullingObservers | droppingContexts | initializing => exact hholds.1

theorem Holds.owner_eq {call : Call} (hholds : definition.Holds request client call h) {owner : κ}
    (hmem : owner ∈ h.graph.inFlight) : owner = client := by
  have hnone (hempty : h.graph.inFlight = []) : owner = client := absurd hmem (hempty ▸ List.not_mem_nil)
  cases call with
  | constructed | ended => exact hnone hholds.inFlight
  | initializingContexts | replacingObservers => exact hnone hholds.1.inFlight
  | stamping | pushing | reading | waiting | closing => exact Serves.inFlight hholds owner hmem
  | resettingContexts => exact hholds.1.inFlight owner hmem
  | nullingObservers | droppingContexts | initializing => exact hnone hholds.2

theorem keeps_body [DecidableEq κ] (definition : GraphDefinition) (request : κ → Request) :
    StreamIdGuard.Keeps (definition.body request) (Idle request) (definition.Holds request) fun _ _ => True where
  construct := id
  work := fun hholds hnext => hholds.next hnext
  alone := fun halone => ⟨fun hidle => alone_eq hidle.inFlight halone ▸ hidle, fun hholds => hholds.alone halone⟩
  destroy := by
    intro client call h hholds hends
    replace hends : Call.hasEnded call = true := hends
    unfold Call.hasEnded at hends
    split at hends
    next => exact ⟨hholds, trivial⟩
    next => cases hends

/-- A graph with one node. -/
def oneNode : GraphDefinition where
  outputNames := ["out"]
  inputNames := ["in"]
  genAiNodes := ["llm"]

def unary (_ : Nat) : Request where
  streaming := false
  hasInputSidePackets := false
  setsTimestamp := false

/-- The first request fails while its packet is in the graph, which is started anew for the second one. -/
def secondAfterError : List (StreamIdGuard.Action Nat Event (GraphEvent Nat)) :=
  [StreamIdGuard.Action.construct 1, .take, .setValue ⟨0, 1⟩ 0, .get ⟨0, 1⟩ 0] ++
    List.replicate 7 (StreamIdGuard.Action.work 1 Event.proceeds) ++
    [StreamIdGuard.Action.construct 2, .push, .alone 0 (GraphEvent.readsContext 1 "llm"), .alone 0 .errs, .work 1 Event.stops, .work 1 .fails,
      .work 1 .proceeds, .work 1 .proceeds, .alone 0 (.emits 1 "out"), .alone 0 (.finishes 1)] ++
    List.replicate 6 (StreamIdGuard.Action.work 1 Event.proceeds) ++
    [StreamIdGuard.Action.destroy 1, .setValue ⟨1, 2⟩ 0, .get ⟨1, 2⟩ 0] ++
    List.replicate 7 (StreamIdGuard.Action.work 2 Event.proceeds) ++ [StreamIdGuard.Action.alone 0 (GraphEvent.emits 2 "out")]

end GraphDefinition

end ModelServer.GraphQueue
