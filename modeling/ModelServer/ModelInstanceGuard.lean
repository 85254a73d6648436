import ModelServer.GuardedResource
import ModelServer.Model

namespace ModelServer.UnloadGuard

open Model (ModelVersionState)

/-- What requests use of a model instance. -/
inductive Component
  | model
  | compiledModel
  | inferRequestsQueue
  | tensorFactories
  | inputsInfo
  | outputsInfo
deriving DecidableEq

inductive StatusCode
  | MODEL_VERSION_NOT_LOADED_YET
  | MODEL_VERSION_NOT_LOADED_ANYMORE
deriving DecidableEq

/-- An atomic step of the code that runs under `loadingMutex`. -/
inductive Instruction
  | setState (state : ModelVersionState)
  /-- The loop that tests `canUnloadInstance`. -/
  | awaitUnload
  | replace (component : Component)
  | createGuard
deriving DecidableEq

def unloadModelComponents : List Instruction :=
  .awaitUnload :: [.inferRequestsQueue, .tensorFactories, .compiledModel, .model, .outputsInfo, .inputsInfo].map .replace

def retireModel (isPermanent : Bool) : List Instruction :=
  .setState (if isPermanent then .UNLOADING else .LOADING) ::
    (unloadModelComponents ++ if isPermanent then [.setState .END] else [])

def cleanupFailedLoad : List Instruction := .setState .LOADING :: unloadModelComponents

/-- How a call of `reloadModel` goes: whether the model is retired first and read again, and after how many of its
stages the load fails. -/
structure Reload where
  isCustomLoaderConfigChanged : Bool
  readsModel : Bool
  failsAfter : Option Nat
deriving DecidableEq

namespace Reload

variable (reload : Reload)

def ok : Bool := reload.failsAfter.isNone

/-- What `loadModelImpl` replaces, in order. -/
def stages : List Component :=
  (if reload.readsModel then [Component.model] else []) ++
    [Component.model, .inputsInfo, .outputsInfo, .compiledModel, .inferRequestsQueue, .tensorFactories]

def loadModelImpl : List Instruction :=
  match reload.failsAfter with
  | none => reload.stages.map .replace ++ [.setState .AVAILABLE]
  | some n => (reload.stages.take n).map .replace ++ [.setState .LOADING]

def reloadModel : List Instruction :=
  [Instruction.setState .LOADING, .awaitUnload] ++ (if reload.isCustomLoaderConfigChanged then retireModel false else []) ++
    reload.loadModelImpl

end Reload

/-- A reload that a request asks for, with the attempts that it makes. -/
structure RequestedReload where
  isSizeRequested : Bool
  first : Reload
  reshapeWithFullReload : Reload
  recoverFromReloadingError : Reload
deriving DecidableEq

/-- The part of `reloadModel` that comes after the guard of the request is gone. -/
def RequestedReload.reloadModel (requested : RequestedReload) : List Instruction :=
  if requested.isSizeRequested then
    requested.first.reloadModel ++
      if requested.first.ok then [.createGuard]
      else retireModel false ++ requested.reshapeWithFullReload.reloadModel ++
        if requested.reshapeWithFullReload.ok then [.createGuard]
        else retireModel false ++ requested.recoverFromReloadingError.reloadModel
  else []

/-- A call of the configuration thread. -/
inductive Configuration
  | reloadModel (reload : Reload)
  | retireModel (isPermanent : Bool)
  | cleanupFailedLoad
deriving DecidableEq

def Configuration.instructions : Configuration → List Instruction
  | .reloadModel reload => reload.reloadModel
  | .retireModel isPermanent => UnloadGuard.retireModel isPermanent
  | .cleanupFailedLoad => UnloadGuard.cleanupFailedLoad

/-- Where a thread stands; the numbers are the turns that are left of the loop of `waitForLoaded`. -/
inductive Thread
  | idle (returned : Option StatusCode)
  /-- The guard is created, the status not yet read. -/
  | guarded (isFirst : Bool) (waitCheckpointsCounter : Nat)
  /-- The status was not `AVAILABLE`, the guard still exists. -/
  | unavailable (isFirst : Bool) (waitCheckpointsCounter : Nat)
  | looping (waitCheckpointsCounter : Nat)
  | rechecking (waitCheckpointsCounter : Nat)
  | timedOut
  /-- `waitForLoaded` has returned `OK`, or the reload that the request asked for has succeeded. -/
  | loaded
  | locking (instructions : List Instruction)
  | running (instructions : List Instruction) (hasGuard : Bool)
deriving DecidableEq

/-- The parts of a model instance that its threads share; `components` counts how often each was replaced. -/
structure ModelInstance (ι : Type) where
  status : ModelVersionState
  predictRequestsHandlesCount : Int
  loadingMutex : Option ι
  components : Component → Nat
  threads : ι → Thread

inductive Event
  | waitForLoaded (waitCheckpoints : Nat)
  /-- The request is done with the model. -/
  | release
  | requestReload (requested : RequestedReload)
  | configure (call : Configuration)
  | proceed
  /-- An exception leaves the code that runs under `loadingMutex`. -/
  | throw
deriving DecidableEq

def willEndUnloaded : ModelVersionState → Bool
  | .UNLOADING | .END => true
  | _ => false

namespace ModelInstance

variable {ι : Type} [DecidableEq ι] (s : ModelInstance ι) (thread : ι)

def moves (next : Thread) : ModelInstance ι := { s with threads := Function.update s.threads thread next }

def increasePredictRequestsHandlesCount : ModelInstance ι :=
  { s with predictRequestsHandlesCount := s.predictRequestsHandlesCount + 1 }

def decreasePredictRequestsHandlesCount : ModelInstance ι :=
  { s with predictRequestsHandlesCount := s.predictRequestsHandlesCount - 1 }

def execute (instruction : Instruction) (rest : List Instruction) (hasGuard : Bool) : ModelInstance ι :=
  match instruction with
  | .setState state => { s with status := state }.moves thread (.running rest hasGuard)
  | .awaitUnload => if s.predictRequestsHandlesCount = 0 then s.moves thread (.running rest hasGuard) else s
  | .replace component =>
    { s with components := Function.update s.components component (s.components component + 1) }.moves thread
      (.running rest hasGuard)
  | .createGuard => s.increasePredictRequestsHandlesCount.moves thread (.running rest true)

/-- The next atomic step of a thread; `none` where the thread has none, or is blocked. -/
def proceed : Option (ModelInstance ι) :=
  match s.threads thread with
  | .idle _ | .loaded => none
  | .guarded isFirst n =>
    some (s.moves thread (if s.status = .AVAILABLE then .loaded else .unavailable isFirst n))
  | .unavailable isFirst n =>
    some (s.decreasePredictRequestsHandlesCount.moves thread (if isFirst then .looping n else .rechecking n))
  | .looping 0 => some (s.moves thread .timedOut)
  | .looping (n + 1) => some (s.increasePredictRequestsHandlesCount.moves thread (.guarded false n))
  | .rechecking n =>
    some (s.moves thread
      (if willEndUnloaded s.status then .idle (some .MODEL_VERSION_NOT_LOADED_ANYMORE) else .looping n))
  | .timedOut =>
    some (s.moves thread (.idle (some
      (if willEndUnloaded s.status then .MODEL_VERSION_NOT_LOADED_ANYMORE else .MODEL_VERSION_NOT_LOADED_YET))))
  | .locking instructions =>
    if s.loadingMutex = none then some ({ s with loadingMutex := some thread }.moves thread (.running instructions false))
    else none
  | .running [] hasGuard =>
    some ({ s with loadingMutex := none }.moves thread (if hasGuard then .loaded else .idle none))
  | .running (instruction :: rest) hasGuard => some (s.execute thread instruction rest hasGuard)

def step (s : ModelInstance ι) : ι × Event → Option (ModelInstance ι)
  | (thread, event) =>
    match event, s.threads thread with
    | .waitForLoaded n, .idle _ => some (s.increasePredictRequestsHandlesCount.moves thread (.guarded true n))
    | .release, .loaded => some (s.decreasePredictRequestsHandlesCount.moves thread (.idle none))
    | .requestReload requested, .loaded =>
      some (s.decreasePredictRequestsHandlesCount.moves thread (.locking requested.reloadModel))
    | .configure call, .idle _ => some (s.moves thread (.locking call.instructions))
    | .throw, .running _ false => some ({ s with loadingMutex := none }.moves thread (.idle none))
    | .proceed, _ => s.proceed thread
    | _, _ => none

/-- No thread uses the instance yet. -/
def start (status : ModelVersionState) (components : Component → Nat) : ModelInstance ι :=
  ⟨status, 0, none, components, fun _ => .idle none⟩

end ModelInstance

open GuardedResource (Hold Phase Represents Sound guards reaches_once)
open Runs

def Thread.hold : Thread → Hold
  | .guarded .. | .unavailable .. => .tentative
  | .loaded => .confirmed
  | .running _ hasGuard => if hasGuard then .confirmed else .none
  | _ => .none

/-- In this phase the code may run: the components are replaced only after the instance was seen unused, and the guard
is created last, when the instance is available again. -/
def Follows : Phase → List Instruction → Prop
  | _, [] => True
  | phase, .setState state :: rest => Follows (if state = .AVAILABLE then .opened else phase.close) rest
  | phase, .awaitUnload :: rest => phase ≠ .opened ∧ Follows .drained rest
  | phase, .replace _ :: rest => phase = .drained ∧ Follows phase rest
  | phase, .createGuard :: rest => phase ≠ .drained ∧ rest = []

section Programs

variable {rest : List Instruction} {components : List Component} {reload : Reload}

theorem follows_nil (phase : Phase) : Follows phase [] := by
  rw [Follows]
  trivial

theorem follows_replace (h : Follows .drained rest) : Follows .drained (components.map .replace ++ rest) := by
  induction components with
  | nil => exact h
  | cons component components ih => exact ⟨rfl, ih⟩

theorem follows_unloadModelComponents (h : Follows .drained rest) {phase : Phase} (hclosed : phase ≠ .opened) :
    Follows phase (unloadModelComponents ++ rest) :=
  ⟨hclosed, follows_replace h⟩

theorem close_ne_opened (phase : Phase) : phase.close ≠ .opened := by
  cases phase <;> decide

theorem follows_retire (h : Follows .drained rest) (phase : Phase) : Follows phase (retireModel false ++ rest) :=
  follows_unloadModelComponents h (close_ne_opened phase)

theorem follows_retireModel (isPermanent : Bool) : Follows .opened (retireModel isPermanent) := by
  cases isPermanent with
  | false =>
    rw [← List.append_nil (retireModel false)]
    exact follows_retire (follows_nil .drained) .opened
  | true =>
    have hend : Follows .drained [.setState .END] := follows_nil .drained
    exact follows_unloadModelComponents hend (close_ne_opened .opened)

theorem follows_cleanupFailedLoad : Follows .opened cleanupFailedLoad := by
  rw [← List.append_nil cleanupFailedLoad]
  exact follows_unloadModelComponents (follows_nil .drained) (close_ne_opened .opened)

/-- After `loadModelImpl` the instance is available, or no request has it. -/
theorem follows_loadModelImpl (h : Follows (if reload.ok then .opened else .drained) rest) :
    Follows .drained (reload.loadModelImpl ++ rest) := by
  unfold Reload.loadModelImpl
  unfold Reload.ok at h
  cases hfails : reload.failsAfter with
  | none =>
    rw [hfails] at h
    rw [List.append_assoc]
    exact follows_replace h
  | some n =>
    rw [hfails] at h
    rw [List.append_assoc]
    exact follows_replace h

theorem follows_reloadModel (h : Follows (if reload.ok then .opened else .drained) rest) (phase : Phase) :
    Follows phase (reload.reloadModel ++ rest) := by
  unfold Reload.reloadModel
  rw [List.append_assoc, List.append_assoc]
  refine ⟨close_ne_opened phase, ?_⟩
  split
  next => exact follows_retire (follows_loadModelImpl h) .drained
  next => exact follows_loadModelImpl h

theorem follows_requested (requested : RequestedReload) : Follows .opened requested.reloadModel := by
  unfold RequestedReload.reloadModel
  split
  next =>
    apply follows_reloadModel
    split
    next => exact ⟨by decide, rfl⟩
    next =>
      rw [List.append_assoc]
      apply follows_retire
      apply follows_reloadModel
      split
      next => exact ⟨by decide, rfl⟩
      next =>
        apply follows_retire
        rw [← List.append_nil (Reload.reloadModel _)]
        exact follows_reloadModel (follows_nil _) .drained
  next => exact follows_nil .opened

theorem follows_configuration (call : Configuration) : Follows .opened call.instructions := by
  cases call with
  | reloadModel reload =>
    rw [Configuration.instructions, ← List.append_nil reload.reloadModel]
    exact follows_reloadModel (follows_nil _) .opened
  | retireModel isPermanent => exact follows_retireModel isPermanent
  | cleanupFailedLoad => exact follows_cleanupFailedLoad

end Programs

section Simulation

variable {ι : Type} [DecidableEq ι]

/-- The instance, as a guarded resource whose writer is the thread that holds `loadingMutex`. -/
structure Related (s : ModelInstance ι) (a : GuardedResource.State ι) : Prop where
  represents : Represents Thread.hold s.threads s.predictRequestsHandlesCount (decide (s.status = .AVAILABLE)) a
  free : s.loadingMutex = none → a.phase = .opened
  locking : ∀ thread instructions, s.threads thread = .locking instructions → Follows .opened instructions
  running : ∀ thread instructions hasGuard, s.threads thread = .running instructions hasGuard →
    s.loadingMutex = some thread ∧ Follows a.phase instructions ∧ (hasGuard = true → instructions = [])

def Thread.isRunning : Thread → Bool
  | .running .. => true
  | _ => false

variable {s t : ModelInstance ι} {a b : GuardedResource.State ι} {thread : ι} {next : Thread}

/-- A thread that does not run goes on without taking `loadingMutex`. -/
theorem Related.passes (h : Related s a) (his : next.isRunning = false)
    (hlocking : ∀ instructions, next = .locking instructions → Follows .opened instructions)
    (hthreads : t.threads = Function.update s.threads thread next) (hmutex : t.loadingMutex = s.loadingMutex)
    (hphase : b.phase = a.phase)
    (hrepresents : Represents Thread.hold (Function.update s.threads thread next) t.predictRequestsHandlesCount
      (decide (t.status = .AVAILABLE)) b) : Related t b where
  represents := hthreads ▸ hrepresents
  free hfree := hphase.trans (h.free (hmutex.symm.trans hfree))
  locking other instructions hother := by
    rw [hthreads] at hother
    by_cases heq : other = thread
    · rw [heq, Function.update_self] at hother
      exact hlocking instructions hother
    · rw [Function.update_of_ne heq] at hother
      exact h.locking other instructions hother
  running other instructions hasGuard hother := by
    rw [hthreads] at hother
    by_cases heq : other = thread
    · rw [heq, Function.update_self] at hother
      rw [hother] at his
      cases his
    · rw [Function.update_of_ne heq] at hother
      rw [hmutex, hphase]
      exact h.running other instructions hasGuard hother

/-- A thread that had `loadingMutex` at its disposal runs on, or gives it back; no other one runs beside it. -/
theorem Related.runs (h : Related s a) (hothers : ∀ other, s.loadingMutex = some other → other = thread)
    (hthreads : t.threads = Function.update s.threads thread next)
    (hlocking : ∀ instructions, next ≠ .locking instructions)
    (hrepresents : Represents Thread.hold (Function.update s.threads thread next) t.predictRequestsHandlesCount
      (decide (t.status = .AVAILABLE)) b)
    (hfree : t.loadingMutex = none → b.phase = .opened)
    (hrunning : ∀ instructions hasGuard, next = .running instructions hasGuard →
      t.loadingMutex = some thread ∧ Follows b.phase instructions ∧ (hasGuard = true → instructions = [])) :
    Related t b where
  represents := hthreads ▸ hrepresents
  free := hfree
  locking other instructions hother := by
    rw [hthreads] at hother
    by_cases heq : other = thread
    · rw [heq, Function.update_self] at hother
      exact absurd hother (hlocking instructions)
    · rw [Function.update_of_ne heq] at hother
      exact h.locking other instructions hother
  running other instructions hasGuard hother := by
    rw [hthreads] at hother
    by_cases heq : other = thread
    · rw [heq, Function.update_self] at hother
      exact heq ▸ hrunning instructions hasGuard hother
    · rw [Function.update_of_ne heq] at hother
      exact absurd (hothers other (h.running other instructions hasGuard hother).1) heq

/-- A thread that does not run goes on, and its guard stays as it was. -/
theorem Related.stays (h : Related s a) (his : next.isRunning = false)
    (hlocking : ∀ instructions, next = .locking instructions → Follows .opened instructions)
    (hhold : next.hold = (s.threads thread).hold) : Related (s.moves thread next) a :=
  h.passes his hlocking rfl rfl rfl (h.represents.stays _ hhold)

theorem Related.raises (h : Related s a) (his : next.isRunning = false)
    (hlocking : ∀ instructions, next = .locking instructions → Follows .opened instructions)
    (hnone : (s.threads thread).hold = .none) (hhold : next.hold = .tentative) :
    ∃ b, Reaches GuardedResource.step anyStep a b ∧
      Related (s.increasePredictRequestsHandlesCount.moves thread next) b := by
  obtain ⟨b, hstep, hphase, hrepresents⟩ := h.represents.raises _ hnone hhold
  exact ⟨b, reaches_once _ hstep, h.passes his hlocking rfl rfl hphase hrepresents⟩

theorem Related.drops (h : Related s a) (his : next.isRunning = false)
    (hlocking : ∀ instructions, next = .locking instructions → Follows .opened instructions)
    (hheld : (s.threads thread).hold ≠ .none) (hhold : next.hold = .none) :
    ∃ b, Reaches GuardedResource.step anyStep a b ∧
      Related (s.decreasePredictRequestsHandlesCount.moves thread next) b := by
  obtain ⟨b, hstep, hphase, hrepresents⟩ := h.represents.drops _ hheld hhold
  exact ⟨b, reaches_once _ hstep, h.passes his hlocking rfl rfl hphase hrepresents⟩

/-- A thread gets `loadingMutex`, which no other one has. -/
theorem Related.acquires {instructions : List Instruction} (h : Related s a) (hfree : s.loadingMutex = none)
    (hthread : s.threads thread = .locking instructions) :
    Related ({ s with loadingMutex := some thread }.moves thread (.running instructions false)) a := by
  refine h.runs (fun other hother => ?_) rfl nofun (h.represents.stays _ (by rw [hthread]; rfl)) nofun ?_
  · rw [hfree] at hother
    cases hother
  · intro rest hasGuard hrest
    cases hrest
    exact ⟨rfl, h.free hfree ▸ h.locking thread instructions hthread, nofun⟩

/-- The running thread gives `loadingMutex` back. -/
theorem Related.leaves {instructions : List Instruction} {hasGuard : Bool} (h : Related s a)
    (hrunning : s.threads thread = .running instructions hasGuard) (his : next.isRunning = false)
    (hlocking : ∀ instructions, next ≠ .locking instructions) (hhold : next.hold = (s.threads thread).hold) :
    ∃ b, Reaches GuardedResource.step anyStep a b ∧ Related ({ s with loadingMutex := none }.moves thread next) b := by
  have hholder := (h.running thread _ _ hrunning).1
  obtain ⟨hhold_eq, hcount_eq, havailable_eq⟩ := h.represents.stays _ hhold
  refine ⟨{ a with phase := .opened }, reaches_once .leave rfl, ?_⟩
  refine h.runs (fun other hother => Option.some.inj (hother.symm.trans hholder)) rfl hlocking
    ⟨hhold_eq, hcount_eq, havailable_eq⟩ (fun _ => rfl) ?_
  intro rest hasGuard hrest
  rw [hrest] at his
  cases his

theorem Related.execute {instruction : Instruction} {rest : List Instruction} {hasGuard : Bool} (h : Related s a)
    (hrunning : s.threads thread = .running (instruction :: rest) hasGuard) :
    ∃ b, Reaches GuardedResource.step anyStep a b ∧ Related (s.execute thread instruction rest hasGuard) b := by
  obtain ⟨hholder, hfollows, hlast⟩ := h.running thread _ _ hrunning
  have hguard : hasGuard = false := by
    cases hasGuard with
    | false => rfl
    | true => cases hlast rfl
  subst hguard
  have hothers : ∀ other, s.loadingMutex = some other → other = thread :=
    fun other hother => Option.some.inj (hother.symm.trans hholder)
  have hnone : (s.threads thread).hold = .none := by rw [hrunning]; rfl
  obtain ⟨hhold_eq, hcount_eq, havailable_eq⟩ := h.represents.stays (.running rest false) hnone.symm
  -- what is left to run, in the phase that the instruction leads to
  have hruns : ∀ {b : GuardedResource.State ι}, Follows b.phase rest → ∀ instructions hasGuard,
      Thread.running rest false = .running instructions hasGuard →
      s.loadingMutex = some thread ∧ Follows b.phase instructions ∧ (hasGuard = true → instructions = []) := by
    intro b hrest instructions hasGuard heq
    cases heq
    exact ⟨hholder, hrest, nofun⟩
  have hheld : s.loadingMutex = none → ∀ phase : Phase, phase = .opened := fun hfree => by
    rw [hholder] at hfree
    cases hfree
  cases instruction with
  | setState state =>
    by_cases havailable : state = .AVAILABLE
    · have hrest : Follows .opened rest := by simpa [Follows, havailable] using hfollows
      refine ⟨{ a with available := true, phase := .opened }, reaches_once .reopen rfl, ?_⟩
      exact h.runs hothers rfl nofun ⟨hhold_eq, hcount_eq, (decide_eq_true havailable).symm⟩ (fun _ => rfl) (hruns hrest)
    · have hrest : Follows a.phase.close rest := by simpa [Follows, havailable] using hfollows
      refine ⟨{ a with available := false, phase := a.phase.close }, reaches_once .close rfl, ?_⟩
      exact h.runs hothers rfl nofun ⟨hhold_eq, hcount_eq, (decide_eq_false havailable).symm⟩ (hheld · _) (hruns hrest)
  | awaitUnload =>
    obtain ⟨hclosed, hrest⟩ := hfollows
    unfold ModelInstance.execute
    dsimp only
    split
    next hzero =>
      have hdrain : GuardedResource.step a .drain = some { a with phase := .drained } :=
        if_pos ⟨hclosed, h.represents.count_eq.trans hzero⟩
      exact ⟨_, reaches_once .drain hdrain, h.runs hothers rfl nofun ⟨hhold_eq, hcount_eq, havailable_eq⟩ (hheld · _) (hruns hrest)⟩
    next => exact ⟨a, .refl, h⟩
  | replace component =>
    obtain ⟨-, hrest⟩ := hfollows
    exact ⟨a, .refl, h.runs hothers rfl nofun ⟨hhold_eq, hcount_eq, havailable_eq⟩ (hheld · _) (hruns hrest)⟩
  | createGuard =>
    obtain ⟨hnotDrained, rfl⟩ := hfollows
    obtain ⟨b, hstep, hphase, hrepresents⟩ := h.represents.adopts (.running [] true) hnone hnotDrained rfl
    refine ⟨b, reaches_once _ hstep, h.runs hothers rfl nofun hrepresents (hheld · _) ?_⟩
    intro instructions hasGuard heq
    cases heq
    exact ⟨hholder, follows_nil _, fun _ => rfl⟩

/-- Each atomic step of a thread is one of the guarded resource, or does not show there. -/
theorem Related.proceed (h : Related s a) (ht : s.proceed thread = some t) :
    ∃ b, Reaches GuardedResource.step anyStep a b ∧ Related t b := by
  unfold ModelInstance.proceed at ht
  cases hthread : s.threads thread with
  | idle returned => simp [hthread] at ht
  | loaded => simp [hthread] at ht
  | guarded isFirst n =>
    rw [hthread] at ht
    cases Option.some.inj ht
    split
    next havailable =>
      have htentative : (s.threads thread).hold = .tentative := by rw [hthread]; rfl
      obtain ⟨b, hstep, hphase, hrepresents⟩ :=
        h.represents.confirms .loaded htentative (decide_eq_true havailable) rfl
      refine ⟨b, reaches_once _ hstep, h.passes ?_ ?_ rfl rfl hphase hrepresents⟩
      · rfl
      · nofun
    next => exact ⟨a, .refl, h.stays rfl nofun (by rw [hthread]; rfl)⟩
  | unavailable isFirst n =>
    rw [hthread] at ht
    cases Option.some.inj ht
    split
    next => exact h.drops rfl nofun (by rw [hthread]; nofun) rfl
    next => exact h.drops rfl nofun (by rw [hthread]; nofun) rfl
  | looping n =>
    rw [hthread] at ht
    cases n with
    | zero =>
      cases Option.some.inj ht
      exact ⟨a, .refl, h.stays rfl nofun (by rw [hthread]; rfl)⟩
    | succ n =>
      cases Option.some.inj ht
      exact h.raises rfl nofun (by rw [hthread]; rfl) rfl
  | rechecking n =>
    rw [hthread] at ht
    cases Option.some.inj ht
    split
    next => exact ⟨a, .refl, h.stays rfl nofun (by rw [hthread]; rfl)⟩
    next => exact ⟨a, .refl, h.stays rfl nofun (by rw [hthread]; rfl)⟩
  | timedOut =>
    rw [hthread] at ht
    cases Option.some.inj ht
    exact ⟨a, .refl, h.stays rfl nofun (by rw [hthread]; rfl)⟩
  | locking instructions =>
    rw [hthread] at ht
    obtain ⟨hfree, ht⟩ := Option.ite_none_right_eq_some.mp ht
    cases Option.some.inj ht
    exact ⟨a, .refl, h.acquires hfree hthread⟩
  | running instructions hasGuard =>
    rw [hthread] at ht
    cases instructions with
    | nil =>
      cases Option.some.inj ht
      cases hasGuard with
      | false => exact h.leaves hthread rfl nofun (by rw [hthread]; rfl)
      | true => exact h.leaves hthread rfl nofun (by rw [hthread]; rfl)
    | cons instruction rest =>
      cases Option.some.inj ht
      exact h.execute hthread

theorem Related.step {event : ι × Event} (h : Related s a)
    (ht : ModelInstance.step s event = some t) :
    ∃ b, Reaches GuardedResource.step anyStep a b ∧ Related t b := by
  obtain ⟨thread, event⟩ := event
  unfold ModelInstance.step at ht
  cases event with
  | proceed => exact h.proceed ht
  | waitForLoaded n =>
    dsimp only at ht
    cases hthread : s.threads thread with
    | idle returned =>
      rw [hthread] at ht
      cases Option.some.inj ht
      exact h.raises rfl nofun (by rw [hthread]; rfl) rfl
    | _ => simp [hthread] at ht
  | release =>
    dsimp only at ht
    cases hthread : s.threads thread with
    | loaded =>
      rw [hthread] at ht
      cases Option.some.inj ht
      exact h.drops rfl nofun (by rw [hthread]; nofun) rfl
    | _ => simp [hthread] at ht
  | requestReload requested =>
    dsimp only at ht
    cases hthread : s.threads thread with
    | loaded =>
      rw [hthread] at ht
      cases Option.some.inj ht
      refine h.drops rfl ?_ (by rw [hthread]; nofun) rfl
      intro instructions hinstructions
      cases hinstructions
      exact follows_requested requested
    | _ => simp [hthread] at ht
  | configure call =>
    dsimp only at ht
    cases hthread : s.threads thread with
    | idle returned =>
      rw [hthread] at ht
      cases Option.some.inj ht
      refine ⟨a, .refl, h.stays rfl ?_ (by rw [hthread]; rfl)⟩
      intro instructions hinstructions
      cases hinstructions
      exact follows_configuration call
    | _ => simp [hthread] at ht
  | throw =>
    dsimp only at ht
    cases hthread : s.threads thread with
    | running instructions hasGuard =>
      rw [hthread] at ht
      cases hasGuard with
      | false =>
        cases Option.some.inj ht
        exact h.leaves hthread rfl nofun (by rw [hthread]; rfl)
      | true => simp at ht
    | _ => simp [hthread] at ht

omit [DecidableEq ι] in
theorem related_start (status : ModelVersionState) (components : Component → Nat) :
    Related (ModelInstance.start (ι := ι) status components)
      (GuardedResource.start (decide (status = .AVAILABLE))) where
  represents := ⟨rfl, rfl, rfl⟩
  free _ := rfl
  locking _ _ := nofun
  running _ _ _ := nofun

/-- Only a `replace` that a thread executes changes the components. -/
theorem components_proceed (ht : s.proceed thread = some t) (hchanged : t.components ≠ s.components) :
    ∃ component rest hasGuard, s.threads thread = .running (.replace component :: rest) hasGuard := by
  unfold ModelInstance.proceed at ht
  cases hthread : s.threads thread with
  | running instructions hasGuard =>
    rw [hthread] at ht
    cases instructions with
    | nil =>
      cases Option.some.inj ht
      exact absurd rfl hchanged
    | cons instruction rest =>
      cases Option.some.inj ht
      cases instruction with
      | replace component => exact ⟨component, rest, hasGuard, rfl⟩
      | awaitUnload =>
        refine absurd ?_ hchanged
        unfold ModelInstance.execute
        dsimp only
        split
        next => rfl
        next => rfl
      | _ => exact absurd rfl hchanged
  | locking instructions =>
    rw [hthread] at ht
    obtain ⟨-, ht⟩ := Option.ite_none_right_eq_some.mp ht
    cases Option.some.inj ht
    exact absurd rfl hchanged
  | looping n =>
    rw [hthread] at ht
    cases n with
    | zero => cases Option.some.inj ht; exact absurd rfl hchanged
    | succ n => cases Option.some.inj ht; exact absurd rfl hchanged
  | idle returned => simp [hthread] at ht
  | loaded => simp [hthread] at ht
  | _ =>
    rw [hthread] at ht
    cases Option.some.inj ht
    exact absurd rfl hchanged

theorem components_step {event : ι × Event} (ht : ModelInstance.step s event = some t)
    (hchanged : t.components ≠ s.components) :
    ∃ component rest hasGuard, s.threads event.1 = .running (.replace component :: rest) hasGuard := by
  obtain ⟨thread, event⟩ := event
  unfold ModelInstance.step at ht
  dsimp only at ht
  split at ht
  next => cases Option.some.inj ht; exact absurd rfl hchanged
  next => cases Option.some.inj ht; exact absurd rfl hchanged
  next => cases Option.some.inj ht; exact absurd rfl hchanged
  next => cases Option.some.inj ht; exact absurd rfl hchanged
  next => cases Option.some.inj ht; exact absurd rfl hchanged
  next => exact components_proceed ht hchanged
  next => cases ht

/-- No step replaces a component while a request has found the instance available and still has its guard, and the
count is the number of guards. -/
theorem ModelInstance.guarded [Fintype ι] {status : ModelVersionState} {components : Component → Nat}
    (h : Reaches ModelInstance.step anyStep (ModelInstance.start status components) s) :
    s.predictRequestsHandlesCount = guards (Thread.hold ∘ s.threads) ∧
      ∀ event t, ModelInstance.step s event = some t → (∃ thread, (s.threads thread).hold = .confirmed) →
        t.components = s.components := by
  obtain ⟨a, hreaches, hrelated⟩ := h.simulated Related (related_start status components) fun h _ ht => h.step ht
  have hsound : Sound a := hreaches.keeps (GuardedResource.sound_start _) fun hs _ ht => hs.step ht
  refine ⟨by rw [← hrelated.represents.count_eq, hsound.count_eq, hrelated.represents.hold_eq], ?_⟩
  intro event t ht hconfirmed
  obtain ⟨thread, hconfirmed⟩ := hconfirmed
  by_contra hchanged
  obtain ⟨component, rest, hasGuard, hrunning⟩ := components_step ht hchanged
  obtain ⟨-, hfollows, -⟩ := hrelated.running event.1 _ _ hrunning
  exact hsound.unused hfollows.1 thread (hrelated.represents.hold_thread.trans hconfirmed)

end Simulation

end ModelServer.UnloadGuard
