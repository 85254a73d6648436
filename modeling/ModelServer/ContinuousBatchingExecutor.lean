import ModelServer.Executors

/-! The executor of a pipeline that batches by itself: its thread steps the pipeline as long as there are requests that are not finished. -/

namespace ModelServer

open ConditionVariable (Program Waiting State)

/-- A pipeline and the requests it is given. -/
structure ContinuousBatchingPipeline (π ρ : Type*) where
  hasNonFinishedRequests : π → Bool
  step : π → π
  addRequest : ρ → π → π
  /-- What the generation handle of a request does. -/
  stop : ρ → π → π
  inputLength : ρ → Nat

structure SchedulerConfig where
  maxNumBatchedTokens : Nat
  dynamicSplitFuse : Bool

inductive LLMExecutorPc
  | looping
  | counting
  | asking
  | stepping
  | waiting
  | ended
deriving DecidableEq

structure LLMExecutor (π ρ : Type*) where
  pipe : π
  finishExecutorThread : Bool := false
  pc : LLMExecutorPc := .looping
  stepCounter : Nat := 0
  disconnected : List ρ := []
  /-- The requests with a callback for the case that the client disconnects. -/
  registered : List ρ := []
  added : List ρ := []

namespace LLMExecutor

variable {π ρ : Type*} [DecidableEq ρ] (pipeline : ContinuousBatchingPipeline π ρ) (config : SchedulerConfig)

def hasRequests (e : LLMExecutor π ρ) : Bool := pipeline.hasNonFinishedRequests e.pipe

/-- A step of `run`. -/
def work (e : LLMExecutor π ρ) : Option (LLMExecutor π ρ) :=
  match e.pc with
  | .looping => some { e with pc := if e.finishExecutorThread then .ended else .counting }
  | .counting => some { e with pc := .asking, stepCounter := if e.stepCounter = 10 then 0 else e.stepCounter }
  | .asking =>
    some (if e.hasRequests pipeline then { e with pc := .stepping, stepCounter := e.stepCounter + 1 } else { e with pc := .waiting })
  | .stepping => some { e with pc := .looping, pipe := pipeline.step e.pipe }
  | .waiting | .ended => none

/-- The thread of the executor. -/
def thread : Waiting (LLMExecutor π ρ) where
  ready e := e.hasRequests pipeline || e.finishExecutorThread
  waits e := decide (e.pc = .waiting)
  locks _ := false
  work := work pipeline
  resume e := { e with pc := .looping }

def addRequest (request : ρ) (e : LLMExecutor π ρ) : LLMExecutor π ρ :=
  { e with pipe := pipeline.addRequest request e.pipe, added := e.added ++ [request] }

def registerDisconnectionCallback (request : ρ) (e : LLMExecutor π ρ) : LLMExecutor π ρ :=
  { e with registered := request :: e.registered }

def disconnect (request : ρ) (e : LLMExecutor π ρ) : LLMExecutor π ρ := { e with disconnected := request :: e.disconnected }

def stop (request : ρ) (e : LLMExecutor π ρ) : LLMExecutor π ρ := { e with pipe := pipeline.stop request e.pipe }

def finish (e : LLMExecutor π ρ) : LLMExecutor π ρ := { e with finishExecutorThread := true }

def notify : Program (LLMExecutor π ρ) := .acquire (.notify (.release .done))

/-- Without dynamic split fuse a prompt has to fit into one batch. -/
def exceedsCapabilities (request : ρ) : Bool :=
  decide (pipeline.inputLength request > config.maxNumBatchedTokens) && !config.dynamicSplitFuse

def scheduleExecution (request : ρ) : Program (LLMExecutor π ρ) :=
  .branch (·.disconnected.contains request) .done
    (if exceedsCapabilities pipeline config request then .done
    else .update (addRequest pipeline request) (.update (registerDisconnectionCallback request) notify))

/-- The client goes away, and a callback that is registered by then stops its request. -/
def disconnection (request : ρ) : Program (LLMExecutor π ρ) :=
  .update (disconnect request) (.branch (·.registered.contains request) (.update (stop pipeline request) .done) .done)

def destroy : Program (LLMExecutor π ρ) := .update finish notify

def programs (present : Party ρ → Bool) (party : Party ρ) : Program (LLMExecutor π ρ) :=
  if present party then
    match party with
    | .client request => scheduleExecution pipeline config request
    | .disconnection request => disconnection pipeline request
    | .destructor => destroy
  else .done

section Runs

variable {pipeline} {config} {e next : LLMExecutor π ρ}

omit [DecidableEq ρ] in
theorem same_of_work (hnext : e.work pipeline = some next) :
    next.added = e.added ∧ next.disconnected = e.disconnected ∧ next.finishExecutorThread = e.finishExecutorThread ∧
      (next.pc = .ended → e.finishExecutorThread = true) := by
  unfold work at hnext
  split at hnext
  next =>
    cases hnext
    refine ⟨rfl, rfl, rfl, fun hended => ?_⟩
    dsimp only at hended
    split at hended
    next hfinished => exact hfinished
    next => cases hended
  next => cases hnext; exact ⟨rfl, rfl, rfl, (fun hended => by cases hended)⟩
  next =>
    cases hnext
    split
    next => exact ⟨rfl, rfl, rfl, (fun hended => by cases hended)⟩
    next => exact ⟨rfl, rfl, rfl, (fun hended => by cases hended)⟩
  next => cases hnext; exact ⟨rfl, rfl, rfl, (fun hended => by cases hended)⟩
  next => cases hnext
  next => cases hnext

/-- All changes that the threads make are of five kinds. -/
theorem makes_program {allowed : (LLMExecutor π ρ → LLMExecutor π ρ) → Prop} {present : Party ρ → Bool}
    (hadd : ∀ request, present (.client request) = true → allowed (addRequest pipeline request))
    (hregister : ∀ request, allowed (registerDisconnectionCallback request)) (hgone : ∀ request, allowed (disconnect request))
    (hstop : ∀ request, allowed (stop pipeline request)) (hfinish : present .destructor = true → allowed finish) (party : Party ρ) :
    (programs pipeline config present party).Makes allowed := by
  unfold programs
  split
  next hpresent =>
    cases party with
    | client request =>
      refine ⟨trivial, ?_⟩
      split
      next => trivial
      next => exact ⟨hadd request hpresent, hregister request, trivial⟩
    | disconnection request => exact ⟨hgone request, ⟨hstop request, trivial⟩, trivial⟩
    | destructor => exact ⟨hfinish hpresent, trivial⟩
  next => trivial

variable (hstop : ∀ request pipe, pipeline.hasNonFinishedRequests (pipeline.stop request pipe) = true →
  pipeline.hasNonFinishedRequests pipe = true)

include hstop in
theorem disciplined_programs (present : Party ρ → Bool) (party : Party ρ) :
    (programs pipeline config present party).Disciplined (thread pipeline).ready false := by
  have hnotify : (notify : Program (LLMExecutor π ρ)).Disciplined (thread pipeline).ready false := ⟨rfl, rfl, rfl⟩
  have hnotifies : (notify : Program (LLMExecutor π ρ)).Notifies true false := Or.inr (Or.inl rfl)
  unfold programs
  split
  next =>
    cases party with
    | client request =>
      refine ⟨rfl, ?_⟩
      split
      next => rfl
      next => exact ⟨Or.inr hnotifies, Or.inl fun _ => id, hnotify⟩
    | disconnection request =>
      refine ⟨Or.inl fun _ => id, ⟨Or.inl fun e hready => ?_, rfl⟩, rfl⟩
      have hcases : (e.stop pipeline request).hasRequests pipeline = true ∨ e.finishExecutorThread = true := Bool.or_eq_true_iff.mp hready
      exact Bool.or_eq_true_iff.mpr (hcases.imp_left (hstop request e.pipe))
    | destructor => exact ⟨Or.inr hnotifies, hnotify⟩
  next => rfl

section Reached

variable {present : Party ρ → Bool} {pipe : π} {s : State (LLMExecutor π ρ) (Party ρ)}
  (h : Runs.Reaches (ConditionVariable.step (thread pipeline)) Runs.anyStep
    (ConditionVariable.start { pipe := pipe } (programs pipeline config present)) s)
include h

theorem added_nodup : s.shared.added.Nodup := by
  rw [List.nodup_iff_count]
  intro request
  have hadd (r : ρ) (hne : r ≠ request) (e : LLMExecutor π ρ) :
      (e.addRequest pipeline r).added.count request = e.added.count request := by
    show (e.added ++ [r]).count request = _
    rw [List.count_append, List.count_eq_zero_of_not_mem fun hmem => hne (List.mem_singleton.mp hmem).symm, Nat.add_zero]
  have hadded (e : LLMExecutor π ρ) : (e.addRequest pipeline request).added.count request ≤ e.added.count request + 1 := by
    show (e.added ++ [request]).count request ≤ _
    exact Nat.le_of_eq (by rw [List.count_append, List.count_singleton_self])
  refine ConditionVariable.counts_of_reaches (fun e : LLMExecutor π ρ => e.added.count request)
    (fun hnext => by rw [(same_of_work hnext).1]) (fun _ => rfl) (.client request) ?_ ?_ h
  · intro party hparty
    unfold programs
    split
    next =>
      cases party with
      | client r =>
        refine ⟨trivial, ?_⟩
        split
        next => trivial
        next => exact ⟨hadd r fun heq => hparty (congrArg Party.client heq), fun _ => rfl, trivial⟩
      | disconnection r => exact ⟨fun _ => rfl, ⟨fun _ => rfl, trivial⟩, trivial⟩
      | destructor => exact ⟨fun _ => rfl, trivial⟩
    next => trivial
  · unfold programs
    split
    next =>
      refine ⟨trivial, ?_⟩
      split
      next => trivial
      next => exact Or.inr ⟨hadded, fun _ => rfl, trivial⟩
    next => trivial

/-- A request that was not added came from a client that is gone, or it is too long. -/
theorem mem_added {request : ρ} (hpresent : present (.client request) = true)
    (haccepted : exceedsCapabilities pipeline config request = false) (hdone : s.threads (.client request) = .done) :
    request ∈ s.shared.added ∨ request ∈ s.shared.disconnected := by
  have hkeeps : ConditionVariable.Keeps (thread pipeline) ConditionVariable.anyState (fun e => request ∈ e.added ∨ request ∈ e.disconnected)
      (programs pipeline config present) := by
    refine ⟨fun _ _ _ hgoal hnext => ?_, fun _ _ _ _ => id, ?_⟩
    · obtain ⟨hadded, hdisconnected, -, -⟩ := same_of_work hnext
      rw [hadded, hdisconnected]
      exact hgoal
    · exact makes_program (fun _ _ _ => ⟨fun _ _ => Or.imp_left (List.mem_append_left _), rfl⟩) (fun _ _ => ⟨fun _ _ => id, rfl⟩)
        (fun _ _ => ⟨fun _ _ => Or.imp_right (List.mem_cons_of_mem _), rfl⟩) (fun _ _ => ⟨fun _ _ => id, rfl⟩) (fun _ _ => ⟨fun _ _ => id, rfl⟩)
  have hbrings : (programs pipeline config present (.client request)).Brings
      fun e => request ∈ e.added ∨ request ∈ e.disconnected := by
    rw [programs, if_pos hpresent]
    refine ⟨Or.inl fun e hgone => Or.inr (List.contains_iff_mem.mp hgone), Or.inr ?_⟩
    rw [haccepted]
    exact Or.inl fun _ => Or.inl (List.mem_append_right _ List.mem_cons_self)
  rcases ConditionVariable.brings_of_reaches hkeeps h (fun _ => trivial) hbrings with hgoal | hlater
  · exact hgoal
  · rw [hdone] at hlater
    exact absurd hlater id

theorem finished_of_destructor (hpresent : present .destructor = true) (hdone : s.threads .destructor = .done) :
    s.shared.finishExecutorThread = true := by
  have hkeeps : ConditionVariable.Keeps (thread pipeline) ConditionVariable.anyState (fun e => e.finishExecutorThread = true) (programs pipeline config present) := by
    refine ⟨fun _ _ _ hgoal hnext => ?_, fun _ _ _ _ => id, ?_⟩
    · rw [(same_of_work hnext).2.2.1]
      exact hgoal
    · exact makes_program (fun _ _ _ => ⟨fun _ _ => id, rfl⟩) (fun _ _ => ⟨fun _ _ => id, rfl⟩) (fun _ _ => ⟨fun _ _ => id, rfl⟩) (fun _ _ => ⟨fun _ _ => id, rfl⟩)
        (fun _ _ => ⟨fun _ _ _ => rfl, rfl⟩)
  have hbrings : (programs pipeline config present .destructor).Brings fun e => e.finishExecutorThread = true := by
    rw [programs, if_pos hpresent]
    exact Or.inl fun _ => rfl
  rcases ConditionVariable.brings_of_reaches hkeeps h (fun _ => trivial) hbrings with hgoal | hlater
  · exact hgoal
  · rw [hdone] at hlater
    exact absurd hlater id

theorem unfinished_without_destructor (habsent : present .destructor = false) : s.shared.finishExecutorThread = false := by
  have hkeeps : ConditionVariable.Keeps (thread pipeline) ConditionVariable.anyState (fun e => e.finishExecutorThread = false) (programs pipeline config present) := by
    refine ⟨fun _ _ _ hgoal hnext => ?_, fun _ _ _ _ => id, ?_⟩
    · rw [(same_of_work hnext).2.2.1]
      exact hgoal
    · refine makes_program (fun _ _ _ => ⟨fun _ _ => id, rfl⟩) (fun _ _ => ⟨fun _ _ => id, rfl⟩) (fun _ _ => ⟨fun _ _ => id, rfl⟩) (fun _ _ => ⟨fun _ _ => id, rfl⟩) fun hpresent => ?_
      rw [habsent] at hpresent
      cases hpresent
  exact ConditionVariable.keeps_of_reaches hkeeps h (fun _ => trivial) rfl

/-- Every request that was added came from its client, and fits. -/
theorem accepted_of_added {request : ρ} (hmem : request ∈ s.shared.added) :
    present (.client request) = true ∧ exceedsCapabilities pipeline config request = false := by
  have hkeeps : ConditionVariable.Keeps (thread pipeline) ConditionVariable.anyState
      (fun e => ∀ r ∈ e.added, present (.client r) = true ∧ exceedsCapabilities pipeline config r = false)
      (programs pipeline config present) := by
    refine ⟨fun _ _ _ hgoal hnext => ?_, fun _ _ _ _ => id, fun party => ?_⟩
    · rw [(same_of_work hnext).1]
      exact hgoal
    · unfold programs
      split
      next hpresent =>
        cases party with
        | client r =>
          refine ⟨trivial, ?_⟩
          split
          next => trivial
          next haccepted =>
            refine ⟨fun e => ⟨fun _ _ hgoal r' hr' => ?_, rfl⟩, fun _ => ⟨fun _ _ => id, rfl⟩, trivial⟩
            rcases List.mem_append.mp hr' with hold | hnew
            · exact hgoal r' hold
            · rw [List.mem_singleton.mp hnew]
              exact ⟨hpresent, Bool.not_eq_true _ ▸ haccepted⟩
        | disconnection r => exact ⟨fun _ => ⟨fun _ _ => id, rfl⟩, ⟨fun _ => ⟨fun _ _ => id, rfl⟩, trivial⟩, trivial⟩
        | destructor => exact ⟨fun _ => ⟨fun _ _ => id, rfl⟩, trivial⟩
      next => trivial
  exact ConditionVariable.keeps_of_reaches hkeeps h (fun _ => trivial) (fun _ hnone => absurd hnone List.not_mem_nil) request hmem

theorem finished_of_ended (hended : s.shared.pc = .ended) : s.shared.finishExecutorThread = true := by
  have hkeeps : ConditionVariable.Keeps (thread pipeline) ConditionVariable.anyState
      (fun e => e.pc = .ended → e.finishExecutorThread = true) (programs pipeline config present) := by
    refine ⟨fun _ _ _ _ hnext hended => ?_, fun _ _ _ _ _ hended => (by cases hended), ?_⟩
    · obtain ⟨-, -, hfinish, hwhen⟩ := same_of_work hnext
      rw [hfinish]
      exact hwhen hended
    · exact makes_program (fun _ _ _ => ⟨fun _ _ => id, rfl⟩) (fun _ _ => ⟨fun _ _ => id, rfl⟩) (fun _ _ => ⟨fun _ _ => id, rfl⟩) (fun _ _ => ⟨fun _ _ => id, rfl⟩)
        (fun _ _ => ⟨fun _ _ _ _ => rfl, rfl⟩)
  exact ConditionVariable.keeps_of_reaches hkeeps h (fun _ => trivial) (fun hended => by cases hended) hended

include hstop in
/-- No request is left behind: where nobody can take a step any more, an executor that was told to stop has stopped, and any other one
sleeps over a pipeline that has finished all requests, which are those that fit and whose clients were there when they came. -/
theorem leaves_no_request : s.shared.added.Nodup ∧
    (∀ request ∈ s.shared.added, present (.client request) = true ∧ exceedsCapabilities pipeline config request = false) ∧
    (ConditionVariable.Quiet (thread pipeline) s →
      (present .destructor = true → s.shared.pc = .ended) ∧
      (present .destructor = false → pipeline.hasNonFinishedRequests s.shared.pipe = false ∧
        ∀ request, present (.client request) = true → exceedsCapabilities pipeline config request = false →
          request ∈ s.shared.added ∨ request ∈ s.shared.disconnected)) := by
  refine ⟨added_nodup h, fun request hmem => accepted_of_added h hmem, fun hquiet => ?_⟩
  have hsound := ConditionVariable.reaches_sound (disciplined_programs hstop present) h
  obtain ⟨hdone, hidle⟩ := hsound.quiet hquiet
  have hended : s.shared.pc = .ended ∨
      pipeline.hasNonFinishedRequests s.shared.pipe = false ∧ s.shared.finishExecutorThread = false := by
    rcases hidle with ⟨-, hready⟩ | ⟨-, hwaits, hwork⟩
    · exact Or.inr (Bool.or_eq_false_iff.mp hready)
    · have hworking : s.shared.work pipeline = none := hwork
      unfold work at hworking
      split at hworking
      next => cases hworking
      next => cases hworking
      next => cases hworking
      next => cases hworking
      next hpc => exact absurd hpc (of_decide_eq_false hwaits)
      next hpc => exact Or.inl hpc
  refine ⟨fun hpresent => ?_, fun habsent => ⟨?_, fun request hpresent haccepted => mem_added h hpresent haccepted (hdone _)⟩⟩
  · have hfinished := finished_of_destructor h hpresent (hdone _)
    rcases hended with hended | ⟨-, hrunning⟩
    · exact hended
    · rw [hfinished] at hrunning
      cases hrunning
  · have hrunning := unfinished_without_destructor h habsent
    rcases hended with hended | ⟨hnone, -⟩
    · rw [finished_of_ended h hended] at hrunning
      cases hrunning
    · exact hnone

end Reached

end Runs

/-- A pipeline that finishes one request in each step. -/
def oneByOne : ContinuousBatchingPipeline (List Nat) Nat where
  hasNonFinishedRequests := fun pipe => !pipe.isEmpty
  step := List.tail
  addRequest := fun request pipe => pipe ++ [request]
  stop := fun request pipe => pipe.filter (· != request)
  inputLength := id

def oneRequest : List (ConditionVariable.Action (Party Nat)) :=
  List.replicate 6 (ConditionVariable.Action.thread (.client 7)) ++ List.replicate 10 ConditionVariable.Action.work

theorem leaves_no_request_one :
    (∀ request pipe, oneByOne.hasNonFinishedRequests (oneByOne.stop request pipe) = true → oneByOne.hasNonFinishedRequests pipe = true) ∧
    ∃ s : State (LLMExecutor (List Nat) Nat) (Party Nat),
      Runs.run (ConditionVariable.step (thread oneByOne)) (ConditionVariable.start { pipe := [] }
        (programs oneByOne ⟨256, false⟩ fun party => decide (party = .client 7))) oneRequest = some s ∧
      s.phase = .asleep ∧ s.shared.added = [7] ∧ s.shared.added.Nodup := by
  have hstop : ∀ request pipe, oneByOne.hasNonFinishedRequests (oneByOne.stop request pipe) = true →
      oneByOne.hasNonFinishedRequests pipe = true := by
    intro request pipe h
    cases pipe with
    | nil => exact h
    | cons r pipe => rfl
  have hrun : ∃ s, Runs.run (ConditionVariable.step (thread oneByOne)) (ConditionVariable.start { pipe := [] }
      (programs oneByOne ⟨256, false⟩ fun party => decide (party = .client 7))) oneRequest = some s ∧
      s.phase = .asleep ∧ s.shared.added = [7] := ⟨_, rfl, rfl, rfl⟩
  obtain ⟨s, hrun, hasleep, hadded⟩ := hrun
  exact ⟨hstop, s, hrun, hasleep, hadded, (leaves_no_request hstop (Runs.reaches_of_run hrun)).1⟩

end LLMExecutor

end ModelServer
