import ModelServer.PipelineDefinitionGuard

namespace ModelServer

open Runs GuardedResource
open Model (ModelVersionState)
open UnloadGuard (ModelInstance Component)
open PipelineUnloadGuard (PipelineDefinitionStateCode Part)

/-- Over any run, of any number of threads: the counter is the number of live guards, and while one of the threads has a
guard with which `waitForLoaded` returned `OK`, no step replaces what it uses. -/
theorem unload_guards_protect {ι : Type} [Fintype ι] [DecidableEq ι] :
    (∀ (status : ModelVersionState) (components : Component → Nat) (s : ModelInstance ι),
      Reaches ModelInstance.step anyStep (ModelInstance.start status components) s →
        s.predictRequestsHandlesCount = guards (UnloadGuard.Thread.hold ∘ s.threads) ∧
          0 ≤ s.predictRequestsHandlesCount ∧
          ∀ event t, ModelInstance.step s event = some t →
            (∃ thread, (s.threads thread).hold = .confirmed) → t.components = s.components) ∧
      ∀ (status : PipelineDefinitionStateCode) (parts : Part → Nat) (s : PipelineUnloadGuard.PipelineDefinition ι),
        Reaches PipelineUnloadGuard.PipelineDefinition.step anyStep
            (PipelineUnloadGuard.PipelineDefinition.start status parts) s →
          s.requestsHandlesCounter = guards (PipelineUnloadGuard.Request.hold ∘ s.requests) ∧
            0 ≤ s.requestsHandlesCounter ∧
            ∀ event t, PipelineUnloadGuard.PipelineDefinition.step s event = some t →
              (∃ request, (s.requests request).hold = .confirmed) → t.parts = s.parts := by
  constructor
  · intro status components s h
    obtain ⟨hcount, hkeeps⟩ := UnloadGuard.ModelInstance.guarded h
    exact ⟨hcount, by omega, hkeeps⟩
  · intro status parts s h
    obtain ⟨hcount, hkeeps⟩ := PipelineUnloadGuard.PipelineDefinition.guarded h
    exact ⟨hcount, by omega, hkeeps⟩

/-- A request is served while a reload of the model, or of the pipeline, waits for it. -/
theorem unload_guards_protect_reloading :
    (∃ s : ModelInstance (Fin 2), run ModelInstance.step (ModelInstance.start .AVAILABLE fun _ => 0)
        [(0, .waitForLoaded 1), (0, .proceed), (1, .configure (.reloadModel ⟨false, true, none⟩)), (1, .proceed),
          (1, .proceed), (1, .proceed)] = some s ∧
      ∀ event t, ModelInstance.step s event = some t → t.components = s.components) ∧
      ∃ s : PipelineUnloadGuard.PipelineDefinition (Fin 2),
        run PipelineUnloadGuard.PipelineDefinition.step
          (PipelineUnloadGuard.PipelineDefinition.start .AVAILABLE fun _ => 0)
          [.waitForLoaded 0 1, .proceed 0, .configure .retire, .proceedConfiguration, .proceedConfiguration] = some s ∧
        ∀ event t, PipelineUnloadGuard.PipelineDefinition.step s event = some t → t.parts = s.parts := by
  constructor
  · obtain ⟨s, hrun, hserved⟩ : ∃ s : ModelInstance (Fin 2),
        run ModelInstance.step (ModelInstance.start .AVAILABLE fun _ => 0)
          [(0, .waitForLoaded 1), (0, .proceed), (1, .configure (.reloadModel ⟨false, true, none⟩)), (1, .proceed),
            (1, .proceed), (1, .proceed)] = some s ∧ (s.threads 0).hold = .confirmed := ⟨_, rfl, rfl⟩
    exact ⟨s, hrun, fun event t ht => (unload_guards_protect.1 _ _ s (reaches_of_run hrun)).2.2 event t ht ⟨0, hserved⟩⟩
  · obtain ⟨s, hrun, hserved⟩ : ∃ s : PipelineUnloadGuard.PipelineDefinition (Fin 2),
        run PipelineUnloadGuard.PipelineDefinition.step
          (PipelineUnloadGuard.PipelineDefinition.start .AVAILABLE fun _ => 0)
          [.waitForLoaded 0 1, .proceed 0, .configure .retire, .proceedConfiguration, .proceedConfiguration] = some s ∧
          (s.requests 0).hold = .confirmed := ⟨_, rfl, rfl⟩
    exact ⟨s, hrun, fun event t ht => (unload_guards_protect.2 _ _ s (reaches_of_run hrun)).2.2 event t ht ⟨0, hserved⟩⟩

end ModelServer
