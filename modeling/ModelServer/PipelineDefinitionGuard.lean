import ModelServer.ModelInstanceGuard

namespace ModelServer.PipelineUnloadGuard

open GuardedResource (Hold Phase Represents Sound guards reaches_once)
open Runs

inductive PipelineDefinitionStateCode
  | BEGIN
  | RELOADING
  | LOADING_PRECONDITION_FAILED
  | LOADING_PRECONDITION_FAILED_REQUIRED_REVALIDATION
  | AVAILABLE_REQUIRED_REVALIDATION
  | AVAILABLE
  | RETIRED
deriving DecidableEq

inductive StatusEvent
  | ReloadEvent
  | ValidationFailedEvent
  | ValidationPassedEvent
  | UsedModelChangedEvent
  | RetireEvent
deriving DecidableEq

namespace PipelineDefinitionStateCode

/-- The state after an event; `none` for an invalid transition, which throws. -/
def handle : PipelineDefinitionStateCode → StatusEvent → Option PipelineDefinitionStateCode
  | .BEGIN, .ValidationPassedEvent => some .AVAILABLE
  | .BEGIN, .ValidationFailedEvent => some .LOADING_PRECONDITION_FAILED
  | .RELOADING, .ValidationPassedEvent => some .AVAILABLE
  | .RELOADING, .ValidationFailedEvent => some .LOADING_PRECONDITION_FAILED
  | .AVAILABLE, .ReloadEvent => some .RELOADING
  | .AVAILABLE, .UsedModelChangedEvent => some .AVAILABLE_REQUIRED_REVALIDATION
  | .AVAILABLE, .RetireEvent => some .RETIRED
  | .AVAILABLE_REQUIRED_REVALIDATION, .ReloadEvent => some .RELOADING
  | .AVAILABLE_REQUIRED_REVALIDATION, .ValidationPassedEvent => some .AVAILABLE
  | .AVAILABLE_REQUIRED_REVALIDATION, .ValidationFailedEvent => some .LOADING_PRECONDITION_FAILED
  | .AVAILABLE_REQUIRED_REVALIDATION, .UsedModelChangedEvent => some .AVAILABLE_REQUIRED_REVALIDATION
  | .AVAILABLE_REQUIRED_REVALIDATION, .RetireEvent => some .RETIRED
  | .LOADING_PRECONDITION_FAILED, .ReloadEvent => some .RELOADING
  | .LOADING_PRECONDITION_FAILED, .UsedModelChangedEvent => some .LOADING_PRECONDITION_FAILED_REQUIRED_REVALIDATION
  | .LOADING_PRECONDITION_FAILED, .RetireEvent => some .RETIRED
  | .LOADING_PRECONDITION_FAILED_REQUIRED_REVALIDATION, .ReloadEvent => some .RELOADING
  | .LOADING_PRECONDITION_FAILED_REQUIRED_REVALIDATION, .ValidationPassedEvent => some .AVAILABLE
  | .LOADING_PRECONDITION_FAILED_REQUIRED_REVALIDATION, .ValidationFailedEvent => some .LOADING_PRECONDITION_FAILED
  | .LOADING_PRECONDITION_FAILED_REQUIRED_REVALIDATION, .UsedModelChangedEvent =>
    some .LOADING_PRECONDITION_FAILED_REQUIRED_REVALIDATION
  | .LOADING_PRECONDITION_FAILED_REQUIRED_REVALIDATION, .RetireEvent => some .RETIRED
  | .RETIRED, .ReloadEvent => some .RELOADING
  | _, _ => none

def isAvailable : PipelineDefinitionStateCode → Bool
  | .AVAILABLE | .AVAILABLE_REQUIRED_REVALIDATION => true
  | _ => false

def canEndLoaded (state : PipelineDefinitionStateCode) : Bool :=
  state.isAvailable ||
    decide (state ∈ [.LOADING_PRECONDITION_FAILED_REQUIRED_REVALIDATION, BEGIN, RELOADING])

end PipelineDefinitionStateCode

inductive StatusCode
  | PIPELINE_DEFINITION_NOT_LOADED_YET
  | PIPELINE_DEFINITION_NOT_LOADED_ANYMORE
deriving DecidableEq

/-- What requests use of a pipeline definition. -/
inductive Part
  | nodeInfos
  | connections
  | nodeResources
deriving DecidableEq

/-- An atomic step of the configuration thread. -/
inductive Instruction
  | handle (event : StatusEvent)
  /-- The loop that tests `requestsHandlesCounter`. -/
  | awaitRequests
  | replace (part : Part)
deriving DecidableEq

/-- The end of `validate`, where the result is notified. -/
def validate (passed : Bool) : List Instruction :=
  [.handle (if passed then .ValidationPassedEvent else .ValidationFailedEvent)]

def reload (passed : Bool) : List Instruction :=
  [Instruction.handle .ReloadEvent, .awaitRequests, .replace .nodeResources, .replace .nodeInfos, .replace .connections] ++
    validate passed

def retire : List Instruction :=
  [.handle .RetireEvent, .awaitRequests, .replace .nodeResources, .replace .nodeResources, .replace .nodeInfos,
    .replace .connections]

/-- A call of the configuration thread. -/
inductive Configuration
  | validate (passed : Bool)
  | reload (passed : Bool)
  | retire
  | notifyUsedModelChanged
deriving DecidableEq

def Configuration.instructions : Configuration → List Instruction
  | .validate passed => PipelineUnloadGuard.validate passed
  | .reload passed => PipelineUnloadGuard.reload passed
  | .retire => PipelineUnloadGuard.retire
  | .notifyUsedModelChanged => [.handle .UsedModelChangedEvent]

/-- Where a request stands in `waitForLoaded`; the numbers are the turns that are left of its loop. -/
inductive Request
  | idle (returned : Option StatusCode)
  /-- At the head of the loop, with a guard. -/
  | guarded (waitCheckpointsCounter : Nat)
  /-- The definition was not available, the guard still exists. -/
  | unavailable (waitCheckpointsCounter : Nat)
  | rechecking (waitCheckpointsCounter : Nat)
  /-- The definition could not end loaded; the status decides on the error. -/
  | stopped
  | waiting (waitCheckpointsCounter : Nat)
  /-- The loop is over, with a guard. -/
  | timedOut
  | unreached
  /-- An error is returned, and the guard is left to the caller. -/
  | failed (returned : StatusCode)
  | loaded
deriving DecidableEq

/-- The parts of a pipeline definition that its threads share; `parts` counts how often each was replaced. -/
structure PipelineDefinition (ι : Type) where
  status : PipelineDefinitionStateCode
  requestsHandlesCounter : Int
  parts : Part → Nat
  requests : ι → Request
  configuration : List Instruction

inductive Event (ι : Type)
  | waitForLoaded (request : ι) (waitCheckpoints : Nat)
  | release (request : ι)
  | proceed (request : ι)
  | configure (call : Configuration)
  | proceedConfiguration
  /-- An exception ends the call of the configuration thread. -/
  | throw
deriving DecidableEq

def notLoadedCode (status : PipelineDefinitionStateCode) : StatusCode :=
  if status ≠ .RETIRED then .PIPELINE_DEFINITION_NOT_LOADED_YET else .PIPELINE_DEFINITION_NOT_LOADED_ANYMORE

namespace PipelineDefinition

variable {ι : Type} [DecidableEq ι] (s : PipelineDefinition ι) (request : ι)

def moves (next : Request) : PipelineDefinition ι := { s with requests := Function.update s.requests request next }

def increaseRequestsHandlesCount : PipelineDefinition ι :=
  { s with requestsHandlesCounter := s.requestsHandlesCounter + 1 }

def decreaseRequestsHandlesCount : PipelineDefinition ι :=
  { s with requestsHandlesCounter := s.requestsHandlesCounter - 1 }

/-- The next atomic step of a request, if it has one. -/
def proceed : Option (PipelineDefinition ι) :=
  match s.requests request with
  | .idle _ | .failed _ | .loaded => none
  | .guarded 0 => some (s.moves request .timedOut)
  | .guarded (n + 1) => some (s.moves request (if s.status.isAvailable then .loaded else .unavailable n))
  | .unavailable n => some (s.decreaseRequestsHandlesCount.moves request (.rechecking n))
  | .rechecking n => some (s.moves request (if s.status.canEndLoaded then .waiting n else .stopped))
  | .stopped => some (s.moves request (.idle (some (notLoadedCode s.status))))
  | .waiting n => some (s.increaseRequestsHandlesCount.moves request (.guarded n))
  | .timedOut => some (s.moves request (if s.status.isAvailable then .loaded else .unreached))
  | .unreached => some (s.moves request (.failed (notLoadedCode s.status)))

def execute (instruction : Instruction) (rest : List Instruction) : PipelineDefinition ι :=
  match instruction with
  | .handle event =>
    match s.status.handle event with
    | none => { s with configuration := [] }
    | some status => { s with status, configuration := rest }
  | .awaitRequests => if s.requestsHandlesCounter > 0 then s else { s with configuration := rest }
  | .replace part =>
    { s with parts := Function.update s.parts part (s.parts part + 1), configuration := rest }

def step (s : PipelineDefinition ι) : Event ι → Option (PipelineDefinition ι)
  | .waitForLoaded request n =>
    match s.requests request with
    | .idle _ => some (s.increaseRequestsHandlesCount.moves request (.guarded n))
    | _ => none
  | .release request =>
    match s.requests request with
    | .loaded | .failed _ => some (s.decreaseRequestsHandlesCount.moves request (.idle none))
    | _ => none
  | .proceed request => s.proceed request
  | .configure call => if s.configuration = [] then some { s with configuration := call.instructions } else none
  | .proceedConfiguration =>
    match s.configuration with
    | [] => none
    | instruction :: rest => some (s.execute instruction rest)
  | .throw => some { s with configuration := [] }

/-- No request uses the definition yet. -/
def start (status : PipelineDefinitionStateCode) (parts : Part → Nat) : PipelineDefinition ι :=
  ⟨status, 0, parts, fun _ => .idle none, []⟩

end PipelineDefinition

def Request.hold : Request → Hold
  | .guarded .. | .unavailable .. | .timedOut | .unreached | .failed _ => .tentative
  | .loaded => .confirmed
  | _ => .none

/-- In this phase the configuration thread may go on so: the parts are replaced only after no request was seen. -/
def Follows : Phase → List Instruction → Prop
  | _, [] => True
  | phase, .handle event :: rest =>
    match event with
    | .ValidationPassedEvent => Follows .opened rest
    | .UsedModelChangedEvent => Follows phase rest
    | _ => Follows phase.close rest
  | phase, .awaitRequests :: rest => phase ≠ .opened ∧ Follows .drained rest
  | phase, .replace _ :: rest => phase = .drained ∧ Follows phase rest

theorem follows_nil (phase : Phase) : Follows phase [] := by
  cases phase <;> trivial

theorem follows_validate (passed : Bool) (phase : Phase) : Follows phase (validate passed) := by
  cases passed <;> cases phase <;> trivial

theorem follows_configuration (call : Configuration) (phase : Phase) : Follows phase call.instructions := by
  cases call with
  | validate passed => exact follows_validate passed phase
  | reload passed => exact ⟨UnloadGuard.close_ne_opened phase, rfl, rfl, rfl, follows_validate passed .drained⟩
  | retire => exact ⟨UnloadGuard.close_ne_opened phase, rfl, rfl, rfl, rfl, trivial⟩
  | notifyUsedModelChanged => cases phase <;> trivial

/-- What an event says about availability. -/
theorem isAvailable_handle {status new : PipelineDefinitionStateCode} {event : StatusEvent}
    (h : status.handle event = some new) :
    new.isAvailable = match event with
      | .ValidationPassedEvent => true
      | .UsedModelChangedEvent => status.isAvailable
      | _ => false := by
  cases status <;> cases event <;> cases h <;> rfl

section Simulation

variable {ι : Type} [DecidableEq ι]

/-- The definition, as a guarded resource whose writer is the configuration thread. -/
structure Related (s : PipelineDefinition ι) (a : GuardedResource.State ι) : Prop where
  represents : Represents Request.hold s.requests s.requestsHandlesCounter s.status.isAvailable a
  configuration : Follows a.phase s.configuration

variable {s t : PipelineDefinition ι} {a : GuardedResource.State ι} {request : ι} {next : Request}

theorem Related.stays (h : Related s a) (hhold : next.hold = (s.requests request).hold) :
    Related (s.moves request next) a :=
  ⟨h.represents.stays next hhold, h.configuration⟩

theorem Related.raises (h : Related s a) (hnone : (s.requests request).hold = .none) (hhold : next.hold = .tentative) :
    ∃ b, Reaches GuardedResource.step anyStep a b ∧ Related (s.increaseRequestsHandlesCount.moves request next) b := by
  obtain ⟨b, hstep, hphase, hrepresents⟩ := h.represents.raises next hnone hhold
  exact ⟨b, reaches_once _ hstep, hrepresents, hphase ▸ h.configuration⟩

theorem Related.drops (h : Related s a) (hheld : (s.requests request).hold ≠ .none) (hhold : next.hold = .none) :
    ∃ b, Reaches GuardedResource.step anyStep a b ∧ Related (s.decreaseRequestsHandlesCount.moves request next) b := by
  obtain ⟨b, hstep, hphase, hrepresents⟩ := h.represents.drops next hheld hhold
  exact ⟨b, reaches_once _ hstep, hrepresents, hphase ▸ h.configuration⟩

theorem Related.confirms (h : Related s a) (htentative : (s.requests request).hold = .tentative)
    (havailable : s.status.isAvailable = true) (hhold : next.hold = .confirmed) :
    ∃ b, Reaches GuardedResource.step anyStep a b ∧ Related (s.moves request next) b := by
  obtain ⟨b, hstep, hphase, hrepresents⟩ := h.represents.confirms next htentative havailable hhold
  exact ⟨b, reaches_once _ hstep, hrepresents, hphase ▸ h.configuration⟩

theorem Related.execute [Fintype ι] {instruction : Instruction} {rest : List Instruction} (h : Related s a)
    (hsound : Sound a) (hconfiguration : s.configuration = instruction :: rest) :
    ∃ b, Reaches GuardedResource.step anyStep a b ∧ Related (s.execute instruction rest) b := by
  obtain ⟨⟨hhold, hcount, havailable⟩, hfollows⟩ := h
  rw [hconfiguration] at hfollows
  cases instruction with
  | handle event =>
    unfold PipelineDefinition.execute
    dsimp only
    cases hhandle : s.status.handle event with
    | none => exact ⟨a, .refl, ⟨hhold, hcount, havailable⟩, follows_nil a.phase⟩
    | some status =>
      have hstatus := isAvailable_handle hhandle
      cases event with
      | ValidationPassedEvent =>
        exact ⟨{ a with available := true, phase := .opened }, reaches_once .reopen rfl, ⟨hhold, hcount, hstatus.symm⟩,
          hfollows⟩
      | UsedModelChangedEvent => exact ⟨a, .refl, ⟨hhold, hcount, havailable.trans hstatus.symm⟩, hfollows⟩
      | _ =>
        exact ⟨{ a with available := false, phase := a.phase.close }, reaches_once .close rfl,
          ⟨hhold, hcount, hstatus.symm⟩, hfollows⟩
  | awaitRequests =>
    obtain ⟨hclosed, hrest⟩ := hfollows
    unfold PipelineDefinition.execute
    dsimp only
    split
    next => exact ⟨a, .refl, ⟨hhold, hcount, havailable⟩, hconfiguration ▸ ⟨hclosed, hrest⟩⟩
    next hzero =>
      have hguards := hsound.count_eq
      have hdrain : GuardedResource.step a .drain = some { a with phase := .drained } := if_pos ⟨hclosed, by omega⟩
      exact ⟨_, reaches_once .drain hdrain, ⟨hhold, hcount, havailable⟩, hrest⟩
  | replace part => exact ⟨a, .refl, ⟨hhold, hcount, havailable⟩, hfollows.2⟩

/-- Each atomic step of a request is one of the guarded resource, or does not show there. -/
theorem Related.proceed (h : Related s a) (ht : s.proceed request = some t) :
    ∃ b, Reaches GuardedResource.step anyStep a b ∧ Related t b := by
  unfold PipelineDefinition.proceed at ht
  cases hrequest : s.requests request with
  | idle returned => simp [hrequest] at ht
  | failed returned => simp [hrequest] at ht
  | loaded => simp [hrequest] at ht
  | guarded n =>
    rw [hrequest] at ht
    cases n with
    | zero =>
      cases Option.some.inj ht
      exact ⟨a, .refl, h.stays (by rw [hrequest]; rfl)⟩
    | succ n =>
      cases Option.some.inj ht
      split
      next havailable => exact h.confirms (by rw [hrequest]; rfl) havailable rfl
      next => exact ⟨a, .refl, h.stays (by rw [hrequest]; rfl)⟩
  | timedOut =>
    rw [hrequest] at ht
    cases Option.some.inj ht
    split
    next havailable => exact h.confirms (by rw [hrequest]; rfl) havailable rfl
    next => exact ⟨a, .refl, h.stays (by rw [hrequest]; rfl)⟩
  | unavailable n =>
    rw [hrequest] at ht
    cases Option.some.inj ht
    exact h.drops (by rw [hrequest]; nofun) rfl
  | waiting n =>
    rw [hrequest] at ht
    cases Option.some.inj ht
    exact h.raises (by rw [hrequest]; rfl) rfl
  | rechecking n =>
    rw [hrequest] at ht
    cases Option.some.inj ht
    split
    next => exact ⟨a, .refl, h.stays (by rw [hrequest]; rfl)⟩
    next => exact ⟨a, .refl, h.stays (by rw [hrequest]; rfl)⟩
  | stopped =>
    rw [hrequest] at ht
    cases Option.some.inj ht
    exact ⟨a, .refl, h.stays (by rw [hrequest]; rfl)⟩
  | unreached =>
    rw [hrequest] at ht
    cases Option.some.inj ht
    exact ⟨a, .refl, h.stays (by rw [hrequest]; rfl)⟩

theorem Related.step [Fintype ι] {event : Event ι} (h : Related s a) (hsound : Sound a)
    (ht : PipelineDefinition.step s event = some t) :
    ∃ b, Reaches GuardedResource.step anyStep a b ∧ Related t b := by
  unfold PipelineDefinition.step at ht
  cases event with
  | proceed request => exact h.proceed ht
  | waitForLoaded request n =>
    cases hrequest : s.requests request with
    | idle returned =>
      simp only [hrequest, Option.some.injEq] at ht
      subst ht
      exact h.raises (by rw [hrequest]; rfl) rfl
    | _ => simp [hrequest] at ht
  | release request =>
    cases hrequest : s.requests request with
    | loaded =>
      simp only [hrequest, Option.some.injEq] at ht
      subst ht
      exact h.drops (by rw [hrequest]; nofun) rfl
    | failed returned =>
      simp only [hrequest, Option.some.injEq] at ht
      subst ht
      exact h.drops (by rw [hrequest]; nofun) rfl
    | _ => simp [hrequest] at ht
  | configure call =>
    obtain ⟨-, ht⟩ := Option.ite_none_right_eq_some.mp ht
    cases Option.some.inj ht
    exact ⟨a, .refl, h.represents, follows_configuration call a.phase⟩
  | proceedConfiguration =>
    cases hconfiguration : s.configuration with
    | nil => simp [hconfiguration] at ht
    | cons instruction rest =>
      simp only [hconfiguration, Option.some.injEq] at ht
      subst ht
      exact h.execute hsound hconfiguration
  | throw =>
    cases Option.some.inj ht
    exact ⟨a, .refl, h.represents, follows_nil a.phase⟩

omit [DecidableEq ι] in
theorem related_start (status : PipelineDefinitionStateCode) (parts : Part → Nat) :
    Related (PipelineDefinition.start (ι := ι) status parts) (GuardedResource.start status.isAvailable) :=
  ⟨⟨rfl, rfl, rfl⟩, trivial⟩

theorem parts_proceed (ht : s.proceed request = some t) : t.parts = s.parts := by
  unfold PipelineDefinition.proceed at ht
  split at ht
  all_goals cases ht
  all_goals rfl

/-- Only a `replace` of the configuration thread changes the parts. -/
theorem parts_step {event : Event ι} (ht : PipelineDefinition.step s event = some t) (hchanged : t.parts ≠ s.parts) :
    ∃ part rest, s.configuration = .replace part :: rest := by
  unfold PipelineDefinition.step at ht
  cases event with
  | proceed request => exact absurd (parts_proceed ht) hchanged
  | waitForLoaded request n =>
    dsimp only at ht
    split at ht
    next => cases Option.some.inj ht; exact absurd rfl hchanged
    next => cases ht
  | release request =>
    dsimp only at ht
    split at ht
    next => cases Option.some.inj ht; exact absurd rfl hchanged
    next => cases Option.some.inj ht; exact absurd rfl hchanged
    next => cases ht
  | configure call =>
    obtain ⟨-, ht⟩ := Option.ite_none_right_eq_some.mp ht
    cases Option.some.inj ht
    exact absurd rfl hchanged
  | throw =>
    cases Option.some.inj ht
    exact absurd rfl hchanged
  | proceedConfiguration =>
    dsimp only at ht
    split at ht
    next => cases ht
    next instruction rest hconfiguration =>
      cases Option.some.inj ht
      cases instruction with
      | replace part => exact ⟨part, rest, hconfiguration⟩
      | awaitRequests =>
        refine absurd ?_ hchanged
        unfold PipelineDefinition.execute
        dsimp only
        split
        next => rfl
        next => rfl
      | handle event =>
        refine absurd ?_ hchanged
        unfold PipelineDefinition.execute
        dsimp only
        split
        next => rfl
        next => rfl

/-- No step replaces a part while a request has found the definition available and still has its guard, and the
counter is the number of guards. -/
theorem PipelineDefinition.guarded [Fintype ι] {status : PipelineDefinitionStateCode} {parts : Part → Nat}
    (h : Reaches PipelineDefinition.step anyStep (PipelineDefinition.start status parts) s) :
    s.requestsHandlesCounter = guards (Request.hold ∘ s.requests) ∧
      ∀ event t, PipelineDefinition.step s event = some t → (∃ request, (s.requests request).hold = .confirmed) →
        t.parts = s.parts := by
  have hkeeps : ∀ {a b : GuardedResource.State ι}, Sound a → Reaches GuardedResource.step anyStep a b → Sound b :=
    fun hsound hreaches => hreaches.keeps hsound fun hs _ ht => hs.step ht
  obtain ⟨a, -, hrelated, hsound⟩ := h.simulated (fun s a => Related s a ∧ Sound a)
    ⟨related_start status parts, GuardedResource.sound_start _⟩
    fun h _ ht => (h.1.step h.2 ht).imp fun _ hb => ⟨hb.1, hb.2, hkeeps h.2 hb.1⟩
  refine ⟨by rw [← hrelated.represents.count_eq, hsound.count_eq, hrelated.represents.hold_eq], ?_⟩
  intro event t ht hconfirmed
  obtain ⟨request, hconfirmed⟩ := hconfirmed
  by_contra hchanged
  obtain ⟨part, rest, hconfiguration⟩ := parts_step ht hchanged
  have hfollows := hrelated.configuration
  rw [hconfiguration] at hfollows
  exact hsound.unused hfollows.1 request (hrelated.represents.hold_thread.trans hconfirmed)

end Simulation

end ModelServer.PipelineUnloadGuard
