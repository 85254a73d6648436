import ModelServer.ConditionVariable
import ModelServer.Delta

/-! The channel between the thread that generates and the thread that answers the client, where the deltas are streamed. -/

namespace ModelServer

open ConditionVariable (Program Waiting State)

/-- Where the thread of the calculator is in `readPartialExecutionResults` and `prepareLegacyPartialResponse`. -/
inductive CalculatorPc
  | waiting
  | checking
  | draining
  | asking
  | awaiting
  | drainingRest
  | done
  | failed
  | cancelled
deriving DecidableEq

/-- A call of `serializeStreamingChunk`: with a delta that was pushed, or with an empty one. -/
inductive ChunkCall
  | chunk (delta : Delta) (finishReason : FinishReason)
  | empty (finishReason : FinishReason)

namespace ChunkCall

def argument : ChunkCall → Delta
  | .chunk delta _ => delta
  | .empty _ => .finish

def finishReason : ChunkCall → FinishReason
  | .chunk _ finishReason | .empty finishReason => finishReason

def pushed : ChunkCall → Option Delta
  | .chunk delta _ => some delta
  | .empty _ => none

end ChunkCall

/-- The execution context of a legacy servable, with its channel. -/
structure StreamingContext where
  deltas : List Delta := []
  complete : Bool := false
  clientDisconnected : Bool := false
  /-- What `isDisconnected` of the client says. -/
  isDisconnected : Bool := false
  /-- The ready signal is set. -/
  finished : Bool := false
  success : Bool := true
  pc : CalculatorPc := .waiting
  /-- The deltas that `preparePartialResponse` has drained. -/
  drained : List Delta := []
  lifecyclePrimed : Bool := false
  calls : List ChunkCall := []
  /-- All deltas that were ever pushed. -/
  pushed : List Delta := []

/-- What the generation of one request does: the deltas its streamer tells, each with the flag of the last one, and whether it throws. -/
structure Generation where
  chunks : List (Delta × Bool)
  fails : Bool
  finishReason : FinishReason

/-- The handler of the API: its endpoint, and whether it has something to say about the last one of these calls. -/
structure ChunkHandler where
  responses : Bool
  serializes : List ChunkCall → Bool

def Generation.deltas (g : Generation) : List Delta := g.chunks.map Prod.fst

namespace StreamingContext

variable (handler : ChunkHandler) (g : Generation)

/-- The calls for the deltas of the last round, of which the last one has the finish reason. -/
def lastCalls (finishReason : FinishReason) : List Delta → List ChunkCall
  | [] => [.empty finishReason]
  | [delta] => [.chunk delta finishReason]
  | delta :: next :: later => .chunk delta .none :: lastCalls finishReason (next :: later)

/-- A round that is not the last one. -/
def emit (c : StreamingContext) : StreamingContext :=
  if c.drained.isEmpty then
    if handler.responses && !c.lifecyclePrimed then
      { c with calls := c.calls ++ [.empty .none], lifecyclePrimed := handler.serializes (c.calls ++ [.empty .none]) }
    else c
  else { c with calls := c.calls ++ c.drained.map (.chunk · .none), drained := [] }

def work (c : StreamingContext) : Option StreamingContext :=
  match c.pc with
  | .checking => some { c with pc := if c.isDisconnected then .cancelled else .draining }
  | .draining => some { c with pc := .asking, drained := c.deltas, deltas := [] }
  | .asking => some (if c.complete then { c with pc := .awaiting } else { c.emit handler with pc := .waiting })
  | .awaiting => if c.finished then some { c with pc := if c.success then .drainingRest else .failed } else none
  | .drainingRest =>
    some { c with pc := .done, drained := [], deltas := [], calls := c.calls ++ lastCalls g.finishReason (c.drained ++ c.deltas) }
  | .waiting | .done | .failed | .cancelled => none

/-- The thread of the calculator. -/
def thread : Waiting StreamingContext where
  ready c := !c.deltas.isEmpty || c.complete
  waits c := decide (c.pc = .waiting)
  locks c := decide (c.pc = .draining) || decide (c.pc = .asking) || decide (c.pc = .drainingRest)
  work := work handler g
  resume c := { c with pc := .checking }

def push (delta : Delta) (isLast : Bool) (c : StreamingContext) : StreamingContext :=
  { c with deltas := c.deltas ++ [delta], complete := c.complete || isLast, pushed := c.pushed ++ [delta] }

def markComplete (c : StreamingContext) : StreamingContext := { c with complete := true }

def setReady (c : StreamingContext) : StreamingContext := { c with finished := true }

def fail (c : StreamingContext) : StreamingContext := { c with success := false }

def loseClient (c : StreamingContext) : StreamingContext := { c with isDisconnected := true }

def markDisconnected (c : StreamingContext) : StreamingContext := { c with clientDisconnected := true }

def pushing (delta : Delta) (isLast : Bool) (next : Program StreamingContext) : Program StreamingContext :=
  .acquire (.update (push delta isLast) (.release (.notify next)))

def signalComplete (next : Program StreamingContext) : Program StreamingContext :=
  .acquire (.update markComplete (.release (.notify next)))

/-- The calls of the streamer's callback, which cancels once the client is gone. -/
def generating (next : Program StreamingContext) : List (Delta × Bool) → Program StreamingContext
  | [] => next
  | (delta, isLast) :: later => .branch clientDisconnected (signalComplete next) (pushing delta isLast (generating next later))

def answering : Program StreamingContext := .update setReady (signalComplete .done)

/-- What comes behind the generation. -/
def ending : Program StreamingContext := if g.fails then .update fail answering else answering

/-- The thread of the executor, while it has this request. -/
def processRequest : Program StreamingContext :=
  .branch clientDisconnected (.update fail answering) (generating (ending g) g.chunks)

def signalDisconnection : Program StreamingContext := .update loseClient (.update markDisconnected (signalComplete .done))

end StreamingContext

/-- The other threads that know the context. -/
inductive StreamingParty
  | executor
  | disconnection
deriving DecidableEq

namespace StreamingContext

variable (handler : ChunkHandler) (g : Generation)

def programs (disconnects : Bool) : StreamingParty → Program StreamingContext
  | .executor => processRequest g
  | .disconnection => if disconnects then signalDisconnection else .done

/-- The deltas of these calls. -/
def told (calls : List ChunkCall) : List Delta := calls.filterMap ChunkCall.pushed

/-- What the thread of the executor guarantees. -/
structure Produced (c : StreamingContext) : Prop where
  part : c.pushed <+: g.deltas
  whole : c.finished = true → c.success = true → c.clientDisconnected = true ∨ c.pushed = g.deltas ∧ g.fails = false
  failure : c.success = false → c.clientDisconnected = true ∨ g.fails = true

/-- What the thread of the calculator guarantees. -/
structure InOrder (c : StreamingContext) : Prop where
  whole : told c.calls ++ c.drained ++ c.deltas = c.pushed
  drained : c.drained = [] ∨ c.pc = .asking ∨ c.pc = .awaiting ∨ c.pc = .drainingRest ∨ c.pc = .failed
  unfinished : c.pc = .done ∨ ∀ call ∈ c.calls, call.finishReason = .none
  settled : c.pc = .drainingRest ∨ c.pc = .done →
    c.finished = true ∧ (c.clientDisconnected = true ∨ c.pushed = g.deltas ∧ g.fails = false)
  done : c.pc = .done → (c.clientDisconnected = true ∨ told c.calls = g.deltas) ∧
    ∃ earlier last, c.calls = earlier ++ [last] ∧ (∀ call ∈ earlier, call.finishReason = .none) ∧ last.finishReason = g.finishReason
  failed : c.pc = .failed → c.success = false
  cancelled : c.pc = .cancelled → c.isDisconnected = true

section Executor

variable {handler} {g} {c d : StreamingContext} {disconnects : Bool}

variable (handler c) in
theorem same_of_emit : (c.emit handler).pushed = c.pushed ∧ (c.emit handler).finished = c.finished ∧ (c.emit handler).success = c.success ∧
    (c.emit handler).clientDisconnected = c.clientDisconnected ∧ (c.emit handler).isDisconnected = c.isDisconnected ∧
    (c.emit handler).complete = c.complete ∧ (c.emit handler).deltas = c.deltas := by
  unfold emit
  split
  next =>
    split
    next => exact ⟨rfl, rfl, rfl, rfl, rfl, rfl, rfl⟩
    next => exact ⟨rfl, rfl, rfl, rfl, rfl, rfl, rfl⟩
  next => exact ⟨rfl, rfl, rfl, rfl, rfl, rfl, rfl⟩

/-- The thread of the calculator only reads what the others tell it. -/
theorem same_of_work (h : c.work handler g = some d) : d.pushed = c.pushed ∧ d.finished = c.finished ∧ d.success = c.success ∧
    d.clientDisconnected = c.clientDisconnected ∧ d.isDisconnected = c.isDisconnected ∧ d.complete = c.complete := by
  unfold work at h
  split at h
  next => cases h; exact ⟨rfl, rfl, rfl, rfl, rfl, rfl⟩
  next => cases h; exact ⟨rfl, rfl, rfl, rfl, rfl, rfl⟩
  next =>
    cases h
    split
    next => exact ⟨rfl, rfl, rfl, rfl, rfl, rfl⟩
    next =>
      obtain ⟨hpushed, hfinished, hsuccess, hclient, hconnected, hcomplete, -⟩ := same_of_emit handler c
      exact ⟨hpushed, hfinished, hsuccess, hclient, hconnected, hcomplete⟩
  next =>
    split at h
    next => cases h; exact ⟨rfl, rfl, rfl, rfl, rfl, rfl⟩
    next => cases h
  next => cases h; exact ⟨rfl, rfl, rfl, rfl, rfl, rfl⟩
  next => cases h
  next => cases h
  next => cases h
  next => cases h

/-- Assertions about what only the thread of the executor changes, and about clients that are gone. -/
theorem stable_of {assertion : StreamingContext → Prop}
    (hsame : ∀ {c d : StreamingContext}, d.pushed = c.pushed → d.finished = c.finished → d.success = c.success →
      (c.clientDisconnected = true → d.clientDisconnected = true) → assertion c → assertion d) :
    ConditionVariable.Stable (thread handler g) .executor (programs g disconnects) assertion where
  work hassertion hwork := by
    obtain ⟨hpushed, hfinished, hsuccess, hclient, -⟩ := same_of_work hwork
    exact hsame hpushed hfinished hsuccess (fun hgone => hclient.trans hgone) hassertion
  resume {c} hassertion := hsame (c := c) rfl rfl rfl id hassertion
  others party hparty := by
    cases party with
    | executor => exact absurd rfl hparty
    | disconnection =>
      show (if disconnects then signalDisconnection else .done).Makes _
      split
      next => exact ⟨fun _ => hsame rfl rfl rfl id, fun _ => hsame rfl rfl rfl fun _ => rfl, fun _ => hsame rfl rfl rfl id, trivial⟩
      next => trivial

variable (handler g disconnects) in
/-- The assertions of the outline. -/
def Fine (assertion : StreamingContext → Prop) : Prop :=
  ConditionVariable.Stable (thread handler g) .executor (programs g disconnects) assertion ∧ ∀ c, assertion c → Produced g c

/-- So far these deltas were pushed. -/
def Generated (before : List (Delta × Bool)) (c : StreamingContext) : Prop :=
  c.pushed = before.map Prod.fst ∧ c.finished = false ∧ c.success = true

variable (g) in
def Cancelled (c : StreamingContext) : Prop := c.clientDisconnected = true ∧ c.pushed <+: g.deltas

variable (g) in
def Succeeded (c : StreamingContext) : Prop := c.pushed = g.deltas ∧ g.fails = false ∧ c.success = true

variable (g) in
def Failed (c : StreamingContext) : Prop := c.pushed = g.deltas ∧ g.fails = true ∧ c.success = false

theorem Generated.part {before later : List (Delta × Bool)} (hchunks : g.chunks = before ++ later) (h : Generated before c) :
    c.pushed <+: g.deltas := by
  rw [h.1, Generation.deltas, hchunks, List.map_append]
  exact List.prefix_append _ _

theorem fine_generated {before later : List (Delta × Bool)} (hchunks : g.chunks = before ++ later) :
    Fine handler g disconnects (Generated before) := by
  refine ⟨stable_of fun hpushed hfinished hsuccess _ h => ?_, fun c h => ⟨h.part hchunks, fun hfinished => ?_, fun hfailed => ?_⟩⟩
  · exact ⟨hpushed.trans h.1, hfinished.trans h.2.1, hsuccess.trans h.2.2⟩
  · rw [h.2.1] at hfinished
    cases hfinished
  · rw [h.2.2] at hfailed
    cases hfailed

theorem fine_cancelled : Fine handler g disconnects (Cancelled g) :=
  ⟨stable_of fun hpushed _ _ hclient h => ⟨hclient h.1, hpushed ▸ h.2⟩, fun _ h => ⟨h.2, fun _ _ => Or.inl h.1, fun _ => Or.inl h.1⟩⟩

theorem fine_succeeded : Fine handler g disconnects (Succeeded g) := by
  refine ⟨stable_of fun hpushed _ hsuccess _ h => ⟨hpushed.trans h.1, h.2.1, hsuccess.trans h.2.2⟩,
    fun c h => ⟨h.1 ▸ List.prefix_rfl, fun _ _ => Or.inr ⟨h.1, h.2.1⟩, fun hfailed => ?_⟩⟩
  rw [h.2.2] at hfailed
  cases hfailed

theorem fine_failed : Fine handler g disconnects (Failed g) := by
  refine ⟨stable_of fun hpushed _ hsuccess _ h => ⟨hpushed.trans h.1, h.2.1, hsuccess.trans h.2.2⟩,
    fun c h => ⟨h.1 ▸ List.prefix_rfl, fun _ hsuccess => ?_, fun _ => Or.inr h.2.1⟩⟩
  rw [h.2.2] at hsuccess
  cases hsuccess

section Outline

/-- Nothing is asserted of the end. -/
abbrev AnyEnd : StreamingContext → Prop := ConditionVariable.anyState

variable {pre : StreamingContext → Prop} {next : Program StreamingContext}

theorem outline_signalComplete (hpre : Fine handler g disconnects pre) (hcomplete : ∀ c, pre c → pre c.markComplete)
    (h : next.Outline (Fine handler g disconnects) AnyEnd pre) : (signalComplete next).Outline (Fine handler g disconnects) AnyEnd pre :=
  ⟨pre, hpre, hcomplete, h⟩

theorem outline_answering {mid : StreamingContext → Prop} (hmid : Fine handler g disconnects mid) (hready : ∀ c, pre c → mid c.setReady)
    (hcomplete : ∀ c, mid c → mid c.markComplete) : answering.Outline (Fine handler g disconnects) AnyEnd pre :=
  ⟨mid, hmid, hready, outline_signalComplete hmid hcomplete fun _ _ => trivial⟩

theorem outline_failing {mid : StreamingContext → Prop} (hmid : Fine handler g disconnects mid) (hfail : ∀ c, pre c → mid c.fail)
    (hready : ∀ c, mid c → mid c.setReady) (hcomplete : ∀ c, mid c → mid c.markComplete) :
    (Program.update fail answering).Outline (Fine handler g disconnects) AnyEnd pre :=
  ⟨mid, hmid, hfail, outline_answering hmid hready hcomplete⟩

theorem outline_ending_cancelled : (ending g).Outline (Fine handler g disconnects) AnyEnd (Cancelled g) := by
  unfold ending
  split
  next => exact outline_failing fine_cancelled (fun _ => id) (fun _ => id) fun _ => id
  next => exact outline_answering fine_cancelled (fun _ => id) fun _ => id

theorem outline_ending_generated : (ending g).Outline (Fine handler g disconnects) AnyEnd (Generated g.chunks) := by
  unfold ending
  split
  next hfails => exact outline_failing fine_failed (fun _ h => ⟨h.1, hfails, rfl⟩) (fun _ => id) fun _ => id
  next hfails =>
    exact outline_answering fine_succeeded (fun _ h => ⟨h.1, Bool.not_eq_true _ ▸ hfails, h.2.2⟩) fun _ => id

theorem outline_generating {before later : List (Delta × Bool)} (hchunks : g.chunks = before ++ later) :
    (generating (ending g) later).Outline (Fine handler g disconnects) AnyEnd (Generated before) := by
  induction later generalizing before with
  | nil =>
    rw [List.append_nil] at hchunks
    rw [← hchunks]
    exact outline_ending_generated
  | cons chunk later ih =>
    have hnext : g.chunks = before ++ [chunk] ++ later := by rw [hchunks, List.append_assoc]; rfl
    refine ⟨⟨Cancelled g, fine_cancelled, fun c h hgone => ⟨hgone, h.part hchunks⟩, ?_⟩, Generated before, fine_generated hchunks,
      fun _ h _ => h, ?_⟩
    · exact outline_signalComplete fine_cancelled (fun _ => id) outline_ending_cancelled
    · refine ⟨Generated (before ++ [chunk]), fine_generated hnext, fun c h => ⟨?_, h.2⟩, ih hnext⟩
      show c.pushed ++ [chunk.1] = _
      rw [h.1, List.map_append]
      rfl

theorem outline_processRequest : (processRequest g).Outline (Fine handler g disconnects) AnyEnd (Generated []) := by
  refine ⟨⟨Cancelled g, fine_cancelled, fun c h hgone => ⟨hgone, h.part rfl⟩, ?_⟩, Generated [], fine_generated rfl, fun _ h _ => h,
    outline_generating rfl⟩
  exact outline_failing fine_cancelled (fun _ => id) (fun _ => id) fun _ => id

end Outline

theorem produced_of_reaches {s : State StreamingContext StreamingParty}
    (h : Runs.Reaches (ConditionVariable.step (thread handler g)) Runs.anyStep (ConditionVariable.start {} (programs g disconnects)) s) :
    Produced g s.shared := by
  have hfine : Fine handler g disconnects (Generated []) := fine_generated rfl
  obtain ⟨assertion, hassertion, hholds⟩ :=
    ConditionVariable.asserts_of_reaches h (fun _ hfine => hfine.1) hfine ⟨rfl, rfl, rfl⟩ outline_processRequest
  exact hassertion.2 _ hholds

end Executor

section Calculator

variable {handler} {g} {c d : StreamingContext} {disconnects : Bool}

theorem told_append (calls later : List ChunkCall) : told (calls ++ later) = told calls ++ told later := List.filterMap_append

theorem told_chunks (finishReason : FinishReason) (deltas : List Delta) : told (deltas.map (.chunk · finishReason)) = deltas := by
  induction deltas with
  | nil => rfl
  | cons delta deltas ih => exact congrArg (delta :: ·) ih

theorem told_lastCalls (finishReason : FinishReason) (deltas : List Delta) : told (lastCalls finishReason deltas) = deltas := by
  induction deltas with
  | nil => rfl
  | cons delta deltas ih =>
    cases deltas with
    | nil => rfl
    | cons next deltas => exact congrArg (delta :: ·) ih

/-- Only the last one of these calls has the finish reason. -/
theorem lastCalls_eq (finishReason : FinishReason) (deltas : List Delta) :
    ∃ earlier last, lastCalls finishReason deltas = earlier ++ [last] ∧ (∀ call ∈ earlier, call.finishReason = .none) ∧
      last.finishReason = finishReason := by
  induction deltas with
  | nil => exact ⟨[], _, rfl, fun _ hnone => absurd hnone List.not_mem_nil, rfl⟩
  | cons delta deltas ih =>
    cases deltas with
    | nil => exact ⟨[], _, rfl, fun _ hnone => absurd hnone List.not_mem_nil, rfl⟩
    | cons next deltas =>
      obtain ⟨earlier, last, hcalls, hearlier, hlast⟩ := ih
      refine ⟨.chunk delta .none :: earlier, last, congrArg (_ :: ·) hcalls, fun call hcall => ?_, hlast⟩
      rcases List.mem_cons.mp hcall with rfl | hcall
      · rfl
      · exact hearlier call hcall

theorem told_emit : told (c.emit handler).calls ++ (c.emit handler).drained = told c.calls ++ c.drained := by
  unfold emit
  split
  next hempty =>
    split
    next =>
      dsimp only
      rw [told_append]
      exact congrArg (· ++ c.drained) (List.append_nil _)
    next => rfl
  next =>
    dsimp only
    rw [told_append, told_chunks, List.append_nil]

theorem drained_emit : (c.emit handler).drained = [] := by
  unfold emit
  split
  next hempty =>
    split
    next => exact List.isEmpty_iff.mp hempty
    next => exact List.isEmpty_iff.mp hempty
  next => rfl

theorem unfinished_emit (h : ∀ call ∈ c.calls, call.finishReason = .none) : ∀ call ∈ (c.emit handler).calls, call.finishReason = .none := by
  intro call hcall
  unfold emit at hcall
  split at hcall
  next =>
    split at hcall
    next =>
      rcases List.mem_append.mp hcall with hold | hnew
      · exact h call hold
      · rw [List.mem_singleton.mp hnew]
        rfl
    next => exact h call hcall
  next =>
    rcases List.mem_append.mp hcall with hold | hnew
    · exact h call hold
    · obtain ⟨delta, -, rfl⟩ := List.mem_map.mp hnew
      rfl

theorem InOrder.work (hproduced : Produced g c) (h : InOrder g c) (hnext : c.work handler g = some d) : InOrder g d := by
  obtain ⟨deltas, complete, clientDisconnected, isDisconnected, finished, success, pc, drained, lifecyclePrimed, calls, pushed⟩ := c
  have hunfinished (hpc : pc ≠ .done) : ∀ call ∈ calls, call.finishReason = .none := h.unfinished.resolve_left hpc
  unfold StreamingContext.work at hnext
  cases pc with
  | checking =>
    have hdrained : drained = [] := by
      rcases h.drained with hdrained | hpc | hpc | hpc | hpc
      · exact hdrained
      all_goals cases hpc
    have hcalls := hunfinished fun hpc => by cases hpc
    cases hnext
    dsimp only
    split
    next hgone =>
      exact ⟨h.whole, Or.inl hdrained, Or.inr hcalls, (fun hpc => by rcases hpc with hpc | hpc <;> cases hpc), (fun hpc => by cases hpc),
        (fun hpc => by cases hpc), fun _ => hgone⟩
    next =>
      exact ⟨h.whole, Or.inl hdrained, Or.inr hcalls, (fun hpc => by rcases hpc with hpc | hpc <;> cases hpc), (fun hpc => by cases hpc),
        (fun hpc => by cases hpc), (fun hpc => by cases hpc)⟩
  | draining =>
    have hdrained : drained = [] := by
      rcases h.drained with hdrained | hpc | hpc | hpc | hpc
      · exact hdrained
      all_goals cases hpc
    have hcalls := hunfinished fun hpc => by cases hpc
    have hwhole := h.whole
    dsimp only at hwhole
    rw [hdrained, List.append_nil] at hwhole
    cases hnext
    refine ⟨?_, Or.inr (Or.inl rfl), Or.inr hcalls, (fun hpc => by rcases hpc with hpc | hpc <;> cases hpc), (fun hpc => by cases hpc),
      (fun hpc => by cases hpc), (fun hpc => by cases hpc)⟩
    dsimp only
    rw [List.append_nil]
    exact hwhole
  | asking =>
    have hcalls := hunfinished fun hpc => by cases hpc
    cases hnext
    split
    next =>
      exact ⟨h.whole, Or.inr (Or.inr (Or.inl rfl)), Or.inr hcalls, (fun hpc => by rcases hpc with hpc | hpc <;> cases hpc),
        (fun hpc => by cases hpc), (fun hpc => by cases hpc), (fun hpc => by cases hpc)⟩
    next =>
      refine ⟨?_, Or.inl drained_emit, Or.inr (unfinished_emit hcalls), (fun hpc => by rcases hpc with hpc | hpc <;> cases hpc),
        (fun hpc => by cases hpc), (fun hpc => by cases hpc), (fun hpc => by cases hpc)⟩
      obtain ⟨hpushed, -, -, -, -, -, hdeltas⟩ := same_of_emit handler
        ⟨deltas, complete, clientDisconnected, isDisconnected, finished, success, .asking, drained, lifecyclePrimed, calls, pushed⟩
      rw [told_emit, hpushed, hdeltas]
      exact h.whole
  | awaiting =>
    have hcalls := hunfinished fun hpc => by cases hpc
    dsimp only at hnext
    split at hnext
    next hfinished =>
      cases hnext
      split
      next hsuccess =>
        exact ⟨h.whole, Or.inr (Or.inr (Or.inr (Or.inl rfl))), Or.inr hcalls, fun _ => ⟨hfinished, hproduced.whole hfinished hsuccess⟩,
          (fun hpc => by cases hpc), (fun hpc => by cases hpc), (fun hpc => by cases hpc)⟩
      next hfailed =>
        exact ⟨h.whole, Or.inr (Or.inr (Or.inr (Or.inr rfl))), Or.inr hcalls, (fun hpc => by rcases hpc with hpc | hpc <;> cases hpc),
          (fun hpc => by cases hpc), fun _ => Bool.not_eq_true _ ▸ hfailed, (fun hpc => by cases hpc)⟩
    next => cases hnext
  | drainingRest =>
    have hcalls := hunfinished fun hpc => by cases hpc
    obtain ⟨hfinished, hsettled⟩ := h.settled (Or.inl rfl)
    obtain ⟨earlier, last, hlast, hearlier, hreason⟩ := lastCalls_eq g.finishReason (drained ++ deltas)
    have htold : told (calls ++ lastCalls g.finishReason (drained ++ deltas)) = pushed := by
      rw [told_append, told_lastCalls, ← List.append_assoc]
      exact h.whole
    cases hnext
    refine ⟨?_, Or.inl rfl, Or.inl rfl, fun _ => ⟨hfinished, hsettled⟩, fun _ => ⟨hsettled.imp_right fun hall => htold.trans hall.1, ?_⟩,
      (fun hpc => by cases hpc), (fun hpc => by cases hpc)⟩
    · dsimp only
      rw [List.append_nil, List.append_nil]
      exact htold
    · refine ⟨calls ++ earlier, last, ?_, fun call hcall => ?_, hreason⟩
      · dsimp only
        rw [hlast, List.append_assoc]
      · exact (List.mem_append.mp hcall).elim (hcalls call) (hearlier call)
  | waiting => cases hnext
  | done => cases hnext
  | failed => cases hnext
  | cancelled => cases hnext

theorem InOrder.push (h : InOrder g c) {delta : Delta} {isLast : Bool} (hproduced : Produced g (c.push delta isLast)) :
    InOrder g (c.push delta isLast) := by
  refine ⟨?_, h.drained, h.unfinished, fun hpc => ?_, h.done, h.failed, h.cancelled⟩
  · show told c.calls ++ c.drained ++ (c.deltas ++ [delta]) = c.pushed ++ [delta]
    rw [← List.append_assoc]
    exact congrArg (· ++ [delta]) h.whole
  · obtain ⟨hfinished, hsettled⟩ := h.settled hpc
    refine ⟨hfinished, hsettled.imp_right fun hall => ?_⟩
    have hlength : (c.pushed ++ [delta]).length ≤ g.deltas.length := hproduced.part.length_le
    rw [List.length_append, hall.1] at hlength
    exact absurd hlength (Nat.not_succ_le_self _)

theorem makes_program {allowed : (StreamingContext → StreamingContext) → Prop} (hpush : ∀ delta isLast, allowed (push delta isLast))
    (hcomplete : allowed markComplete) (hready : allowed setReady) (hfail : allowed fail)
    (hclient : disconnects = true → allowed loseClient ∧ allowed markDisconnected) (party : StreamingParty) :
    (programs g disconnects party).Makes allowed := by
  have hanswering : answering.Makes allowed := ⟨hready, hcomplete, trivial⟩
  cases party with
  | executor =>
    have hending : (ending g).Makes allowed := by
      unfold ending
      split
      next => exact ⟨hfail, hanswering⟩
      next => exact hanswering
    have hgenerating (chunks : List (Delta × Bool)) : (generating (ending g) chunks).Makes allowed := by
      induction chunks with
      | nil => exact hending
      | cons chunk chunks ih => exact ⟨⟨hcomplete, hending⟩, hpush _ _, ih⟩
    exact ⟨⟨hfail, hanswering⟩, hgenerating _⟩
  | disconnection =>
    show (if disconnects then signalDisconnection else .done).Makes allowed
    split
    next hdisconnects => exact ⟨(hclient hdisconnects).1, (hclient hdisconnects).2, hcomplete, trivial⟩
    next => trivial

variable (handler g disconnects) in
theorem keeps_inOrder : ConditionVariable.Keeps (thread handler g) (Produced g) (InOrder g) (programs g disconnects) where
  work hproduced _ _ h hnext := h.work hproduced hnext
  resume _ _ hwaits _ h := by
    have hpc := of_decide_eq_true hwaits
    refine ⟨h.whole, ?_, h.unfinished.imp_left fun hdone => ?_, (fun hpc => by rcases hpc with hpc | hpc <;> cases hpc),
      (fun hpc => by cases hpc), (fun hpc => by cases hpc), (fun hpc => by cases hpc)⟩
    · rcases h.drained with hdrained | hbefore | hbefore | hbefore | hbefore
      · exact Or.inl hdrained
      all_goals
        rw [hpc] at hbefore
        cases hbefore
    · rw [hpc] at hdone
      cases hdone
  makes := makes_program (fun _ _ _ => ⟨fun _ hnext h => h.push hnext, rfl⟩)
    (fun _ => ⟨fun _ _ h => ⟨h.whole, h.drained, h.unfinished, h.settled, h.done, h.failed, h.cancelled⟩, rfl⟩)
    (fun _ => ⟨fun _ _ h => ⟨h.whole, h.drained, h.unfinished, fun hpc => ⟨rfl, (h.settled hpc).2⟩, h.done, h.failed, h.cancelled⟩, rfl⟩)
    (fun _ => ⟨fun _ _ h => ⟨h.whole, h.drained, h.unfinished, h.settled, h.done, fun _ => rfl, h.cancelled⟩, rfl⟩)
    (fun _ => ⟨fun _ => ⟨fun _ _ h => ⟨h.whole, h.drained, h.unfinished, h.settled, h.done, h.failed, fun _ => rfl⟩, rfl⟩,
      fun _ => ⟨fun _ _ h => ⟨h.whole, h.drained, h.unfinished, fun hpc => ⟨(h.settled hpc).1, Or.inl rfl⟩,
        fun hpc => ⟨Or.inl rfl, (h.done hpc).2⟩, h.failed, h.cancelled⟩, rfl⟩⟩)

variable (handler) in
theorem disciplined_programs (party : StreamingParty) : (programs g disconnects party).Disciplined (thread handler g).ready false := by
  have hsignal {next : Program StreamingContext} (hnext : next.Disciplined (thread handler g).ready false) :
      (signalComplete next).Disciplined (thread handler g).ready false := ⟨rfl, Or.inr (Or.inl rfl), rfl, hnext⟩
  have hsame {f : StreamingContext → StreamingContext} {next : Program StreamingContext}
      (hready : ∀ c, (f c).deltas = c.deltas ∧ (f c).complete = c.complete) (hnext : next.Disciplined (thread handler g).ready false) :
      (Program.update f next).Disciplined (thread handler g).ready false := by
    refine ⟨Or.inl fun c h => ?_, hnext⟩
    have hboth : (!(f c).deltas.isEmpty || (f c).complete) = true := h
    rw [(hready c).1, (hready c).2] at hboth
    exact hboth
  have hanswering : answering.Disciplined (thread handler g).ready false := hsame (fun _ => ⟨rfl, rfl⟩) (hsignal rfl)
  have hfailing : (Program.update fail answering).Disciplined (thread handler g).ready false := hsame (fun _ => ⟨rfl, rfl⟩) hanswering
  cases party with
  | executor =>
    have hending : (ending g).Disciplined (thread handler g).ready false := by
      unfold ending
      split
      next => exact hfailing
      next => exact hanswering
    have hgenerating (chunks : List (Delta × Bool)) : (generating (ending g) chunks).Disciplined (thread handler g).ready false := by
      induction chunks with
      | nil => exact hending
      | cons chunk chunks ih => exact ⟨hsignal hending, rfl, Or.inr (Or.inl rfl), rfl, ih⟩
    exact ⟨hfailing, hgenerating _⟩
  | disconnection =>
    show (if disconnects then signalDisconnection else .done).Disciplined _ false
    split
    next => exact hsame (fun _ => ⟨rfl, rfl⟩) (hsame (fun _ => ⟨rfl, rfl⟩) (hsignal rfl))
    next => rfl

section Runs

variable {s : State StreamingContext StreamingParty}
  (h : Runs.Reaches (ConditionVariable.step (thread handler g)) Runs.anyStep (ConditionVariable.start {} (programs g disconnects)) s)
include h

theorem inOrder_of_reaches : InOrder g s.shared :=
  ConditionVariable.keeps_of_reaches (keeps_inOrder handler g disconnects) h produced_of_reaches
    ⟨rfl, Or.inl rfl, Or.inr fun _ hnone => absurd hnone List.not_mem_nil, (fun hpc => by rcases hpc with hpc | hpc <;> cases hpc),
      (fun hpc => by cases hpc), (fun hpc => by cases hpc), (fun hpc => by cases hpc)⟩

theorem brought_of_done (goal : StreamingContext → Prop) (hdone : s.threads .executor = .done)
    (hkeeps : ConditionVariable.Keeps (thread handler g) ConditionVariable.anyState goal (programs g disconnects))
    (hanswering : answering.Brings goal) : goal s.shared := by
  have hending : (ending g).Brings goal := by
    unfold ending
    split
    next => exact Or.inr hanswering
    next => exact hanswering
  have hgenerating (chunks : List (Delta × Bool)) : (generating (ending g) chunks).Brings goal := by
    induction chunks with
    | nil => exact hending
    | cons chunk chunks ih => exact ⟨Or.inr (Or.inr hending), Or.inr (Or.inr ih)⟩
  have hbrings : (programs g disconnects .executor).Brings goal := ⟨Or.inr (Or.inr hanswering), Or.inr (hgenerating _)⟩
  rcases ConditionVariable.brings_of_reaches hkeeps h (fun _ => trivial) hbrings with hgoal | hlater
  · exact hgoal
  · rw [hdone] at hlater
    exact absurd hlater id

/-- In the end the thread of the executor has set the ready signal and completed the channel. -/
theorem answered_of_done (hdone : s.threads .executor = .done) : s.shared.finished = true ∧ s.shared.complete = true := by
  constructor
  · refine brought_of_done h (fun c => c.finished = true) hdone ⟨fun _ _ _ hgoal hnext => ?_, fun _ _ _ _ => id, ?_⟩ (Or.inl fun _ => rfl)
    · obtain ⟨-, hfinished, -⟩ := same_of_work hnext
      rw [hfinished]
      exact hgoal
    · exact makes_program (fun _ _ _ => ⟨fun _ _ => id, rfl⟩) (fun _ => ⟨fun _ _ => id, rfl⟩) (fun _ => ⟨fun _ _ _ => rfl, rfl⟩)
        (fun _ => ⟨fun _ _ => id, rfl⟩) (fun _ => ⟨fun _ => ⟨fun _ _ => id, rfl⟩, fun _ => ⟨fun _ _ => id, rfl⟩⟩)
  · refine brought_of_done h (fun c => c.complete = true) hdone ⟨fun _ _ _ hgoal hnext => ?_, fun _ _ _ _ => id, ?_⟩ (Or.inr (Or.inl fun _ => rfl))
    · obtain ⟨-, -, -, -, -, hcomplete⟩ := same_of_work hnext
      rw [hcomplete]
      exact hgoal
    · exact makes_program (fun _ _ _ => ⟨fun _ _ hgoal => Bool.or_eq_true_iff.mpr (Or.inl hgoal), rfl⟩) (fun _ => ⟨fun _ _ _ => rfl, rfl⟩)
        (fun _ => ⟨fun _ _ => id, rfl⟩) (fun _ => ⟨fun _ _ => id, rfl⟩)
        (fun _ => ⟨fun _ => ⟨fun _ _ => id, rfl⟩, fun _ => ⟨fun _ _ => id, rfl⟩⟩)

theorem connected_of_reaches (hconnected : disconnects = false) :
    s.shared.clientDisconnected = false ∧ s.shared.isDisconnected = false := by
  have hkeeps : ConditionVariable.Keeps (thread handler g) ConditionVariable.anyState
      (fun c => c.clientDisconnected = false ∧ c.isDisconnected = false) (programs g disconnects) := by
    refine ⟨fun _ _ _ hgoal hnext => ?_, fun _ _ _ _ => id, ?_⟩
    · obtain ⟨-, -, -, hclient, hgone, -⟩ := same_of_work hnext
      rw [hclient, hgone]
      exact hgoal
    · refine makes_program (fun _ _ _ => ⟨fun _ _ => id, rfl⟩) (fun _ => ⟨fun _ _ => id, rfl⟩) (fun _ => ⟨fun _ _ => id, rfl⟩)
        (fun _ => ⟨fun _ _ => id, rfl⟩) fun hdisconnects => ?_
      rw [hconnected] at hdisconnects
      cases hdisconnects
  exact ConditionVariable.keeps_of_reaches hkeeps h (fun _ => trivial) ⟨rfl, rfl⟩

theorem ended_of_quiet (hquiet : ConditionVariable.Quiet (thread handler g) s) :
    s.shared.pc = .done ∨ s.shared.pc = .failed ∨ s.shared.pc = .cancelled := by
  have hsound := ConditionVariable.reaches_sound (disciplined_programs handler) h
  obtain ⟨hdone, hidle⟩ := hsound.quiet hquiet
  obtain ⟨hfinished, hcomplete⟩ := answered_of_done h (hdone _)
  rcases hidle with ⟨-, hready⟩ | ⟨-, hwaits, hwork⟩
  · have hnothing : (!s.shared.deltas.isEmpty || s.shared.complete) = false := hready
    rw [hcomplete, Bool.or_true] at hnothing
    cases hnothing
  · have hworking : s.shared.work handler g = none := hwork
    unfold work at hworking
    split at hworking
    next => cases hworking
    next => cases hworking
    next => cases hworking
    next =>
      rw [if_pos hfinished] at hworking
      cases hworking
    next => cases hworking
    next hpc => exact absurd hpc (of_decide_eq_false hwaits)
    next hpc => exact Or.inl hpc
    next hpc => exact Or.inr (Or.inl hpc)
    next hpc => exact Or.inr (Or.inr hpc)

/-- The deltas of a generation are told in their order, each once, with the finish reason in the last call and in no other one; and
where nobody can take a step any more, the client has been told all of them, unless it is gone or the generation has failed. -/
theorem streams_in_order : told s.shared.calls <+: g.deltas ∧
    (s.shared.pc ≠ .done → ∀ call ∈ s.shared.calls, call.finishReason = .none) ∧
    (s.shared.pc = .done → (s.shared.clientDisconnected = true ∨ told s.shared.calls = g.deltas) ∧
      ∃ earlier last, s.shared.calls = earlier ++ [last] ∧ (∀ call ∈ earlier, call.finishReason = .none) ∧
        last.finishReason = g.finishReason) ∧
    (ConditionVariable.Quiet (thread handler g) s →
      (s.shared.pc = .done ∨ s.shared.pc = .failed ∨ s.shared.pc = .cancelled) ∧
      (disconnects = false → s.shared.pc = if g.fails then .failed else .done)) := by
  have hinOrder := inOrder_of_reaches h
  have hproduced := produced_of_reaches h
  refine ⟨?_, fun hpc => hinOrder.unfinished.resolve_left hpc, hinOrder.done, fun hquiet => ⟨ended_of_quiet h hquiet, fun hconnected => ?_⟩⟩
  · have hpart := hproduced.part
    rw [← hinOrder.whole, List.append_assoc] at hpart
    exact (List.prefix_append _ _).trans hpart
  · obtain ⟨hclient, hconnection⟩ := connected_of_reaches h hconnected
    have hthere : ¬s.shared.clientDisconnected = true := by
      rw [hclient]
      exact Bool.false_ne_true
    rcases ended_of_quiet h hquiet with hpc | hpc | hpc
    · rw [hpc, ((hinOrder.settled (Or.inr hpc)).2.resolve_left hthere).2]
      rfl
    · rw [hpc, (hproduced.failure (hinOrder.failed hpc)).resolve_left hthere]
      rfl
    · have hgone := hinOrder.cancelled hpc
      rw [hconnection] at hgone
      cases hgone

end Runs

end Calculator

/-- Two deltas, of which the calculator sees the first one alone. -/
def twoDeltas : List (ConditionVariable.Action StreamingParty) :=
  List.replicate 6 (ConditionVariable.Action.thread StreamingParty.executor) ++ List.replicate 5 ConditionVariable.Action.work ++
    List.replicate 10 (ConditionVariable.Action.thread StreamingParty.executor) ++ List.replicate 7 ConditionVariable.Action.work

def twoContents : Generation := ⟨[(.content [97], false), (.content [98], true)], false, .stop⟩

def chat : ChunkHandler := ⟨false, fun _ => true⟩

theorem streams_in_order_two : ∃ s : State StreamingContext StreamingParty,
    Runs.run (ConditionVariable.step (thread chat twoContents)) (ConditionVariable.start {} (programs twoContents false)) twoDeltas = some s ∧
    s.shared.pc = .done ∧ (s.shared.clientDisconnected = true ∨ told s.shared.calls = twoContents.deltas) := by
  have hrun : ∃ s, Runs.run (ConditionVariable.step (thread chat twoContents))
      (ConditionVariable.start {} (programs twoContents false)) twoDeltas = some s ∧ s.shared.pc = .done := ⟨_, rfl, rfl⟩
  obtain ⟨s, hrun, hpc⟩ := hrun
  exact ⟨s, hrun, hpc, ((streams_in_order (Runs.reaches_of_run hrun)).2.2.1 hpc).1⟩

end StreamingContext

end ModelServer
