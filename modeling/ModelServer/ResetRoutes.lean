import ModelServer.Gemma4Redraw
import ModelServer.Qwen3CoderRedraw

namespace ModelServer

namespace Gemma4ReasoningParser

theorem parseChunk_implicitStart (s : State) (chunk : Str) (finishReason : FinishReason) :
    (parseChunk s chunk finishReason).2.implicitStart = s.implicitStart := by
  unfold parseChunk
  split
  · rfl
  · dsimp only
    split
    · rfl
    · split <;> rfl

theorem maintains (implicit : Bool) :
    ModelServer.Gemma4ReasoningParser.Maintains fun s => s.implicitStart = implicit where
  parseChunk h chunk finishReason := (parseChunk_implicitStart _ chunk finishReason).trans h
  resetState h := h

end Gemma4ReasoningParser

namespace Gemma4Route

variable (env : Gemma4ToolParser.Environment) (ids : RandomIds)

theorem similar :
    OutputParser.Similar (gemma4Route env) (gemma4Route (Gemma4ToolParser.Parser.redrawing env ids))
      Gemma4ToolParser.Parser.SameButIds :=
  ⟨Gemma4ToolParser.interchangeable env ids, rfl, rfl, rfl, rfl⟩

theorem restores (implicit : Bool) (n : Nat) :
    OutputParser.Restores (gemma4Route env) Gemma4ToolParser.Parser.SameButIds
      (fun r : Gemma4ReasoningParser.State => r.implicitStart = implicit) implicit
      { drawnIds := n } {} () where
  tool x := ⟨[], n, rfl⟩
  reasoning r h := by
    obtain ⟨phase, pending, implicitStart⟩ := r
    dsimp only at h
    subst h
    cases implicitStart <;> rfl
  content _ := rfl
  new := rfl

theorem resetAsNew (n m : Nat) :
    OutputParser.ResetAsNew (gemma4Route env)
      (gemma4Route (Gemma4ToolParser.Parser.redrawing env ids)) (initial n) (initial m) := by
  intro implicit visible history calls
  exact OutputParser.returned_reset (similar env ids) (Gemma4ReasoningParser.maintains implicit)
    (similar env env.randomIds) Gemma4ToolParser.Parser.SameButIds.refl (restores env implicit m)
    history calls

end Gemma4Route

namespace Qwen3Route

variable (env : Qwen3CoderToolParser.Environment) (ids : RandomIds)

theorem similar :
    OutputParser.Similar (qwen3Route env) (qwen3Route (Qwen3CoderToolParser.Parser.redrawing env ids))
      Qwen3CoderToolParser.Parser.SameButIds :=
  ⟨Qwen3CoderToolParser.interchangeable env ids, rfl, rfl, rfl, rfl⟩

theorem restores (implicit : Bool) (n : Nat) :
    OutputParser.Restores (qwen3Route env) Qwen3CoderToolParser.Parser.SameButIds
      (fun _ : Bool => True) implicit { streamParser := Qwen3CoderToolParser.Impl.fresh n } false () where
  tool x := ⟨⟨n, rfl⟩, rfl, rfl⟩
  reasoning _ _ := by cases implicit <;> rfl
  content _ := rfl
  new := trivial

theorem resetAsNew (n m : Nat) :
    OutputParser.ResetAsNew (qwen3Route env)
      (qwen3Route (Qwen3CoderToolParser.Parser.redrawing env ids)) (initial n) (initial m) := by
  intro implicit visible history calls
  exact OutputParser.returned_reset (similar env ids) ⟨fun _ _ _ => trivial, fun _ => trivial⟩
    (similar env env.randomIds) Qwen3CoderToolParser.Parser.SameButIds.refl (restores env implicit m)
    history calls

end Qwen3Route

namespace OutputParser

/-- On the routes of Gemma4 and of Qwen3-Coder nothing of a response is left behind by a
reset, whatever the registry and whichever ids either route draws. -/
theorem reset_leaves_no_residue (ids : RandomIds) (n m : Nat) :
    (∀ env : Gemma4ToolParser.Environment,
      ResetAsNew (gemma4Route env) (gemma4Route { env with randomIds := ids })
        (Gemma4Route.initial n) (Gemma4Route.initial m)) ∧
      ∀ env : Qwen3CoderToolParser.Environment,
        ResetAsNew (qwen3Route env) (qwen3Route { env with randomIds := ids })
          (Qwen3Route.initial n) (Qwen3Route.initial m) :=
  ⟨fun env => Gemma4Route.resetAsNew env ids n m, fun env => Qwen3Route.resetAsNew env ids n m⟩

end OutputParser

end ModelServer
