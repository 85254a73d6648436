import ModelServer.StreamIdGuards
import ModelServer.TensorInfo

/-! The inference executor: the requests of a model instance, synchronous and asynchronous, which share its infer
requests. -/

namespace ModelServer.Inference

/-- `ov::InferRequest`. -/
structure InferRequest (κ τ : Type) where
  /-- The tensors of the inputs that were set. -/
  inputs : String → Option τ
  /-- Whose memory the tensor of an output is in, `none` for the tensor the infer request was created with. -/
  outputs : String → Option κ
  /-- What is in the memory of an output. -/
  memory : Option κ → String → τ

variable {κ τ : Type}

namespace InferRequest

variable (r : InferRequest κ τ)

def setInput (name : String) (tensor : Option τ) : InferRequest κ τ := { r with inputs := Function.update r.inputs name tensor }

def setOutput (name : String) (owner : Option κ) : InferRequest κ τ := { r with outputs := Function.update r.outputs name owner }

def getOutput (name : String) : τ := r.memory (r.outputs name) name

/-- What an inference leaves in the tensors of the outputs. -/
def write [DecidableEq κ] (left : String → τ) : InferRequest κ τ :=
  { r with memory := fun owner name => if r.outputs name = owner then left name else r.memory owner name }

end InferRequest

structure ModelInstance (τ : Type) where
  inputsInfo : List (String × TensorInfo)
  outputsInfo : List (String × TensorInfo)
  /-- Whether `get_tensor` of an infer request gives the tensor of an output under this name. -/
  hasTensor : String → Bool
  compute : (String → Option τ) → String → τ

/-- What a request brings for the names of the servable. -/
structure Request (τ : Type) where
  /-- Whether it was made through `modelInferAsync`. -/
  asynchronous : Bool
  /-- The deserialized tensor of an input, `none` where it is missing or not deserialized. -/
  input : String → Option τ
  /-- Whether the client set the memory of an output. -/
  setsOutput : String → Bool

inductive Answer (τ : Type)
  | error
  /-- `caught` says that the callback went on after an exception. -/
  | success (caught : Bool) (response : List (String × τ))

/-- The tensors of the outputs, as they were before the request. -/
abbrev OutputKeeper (κ : Type) := List (String × Option κ)

/-- How far a request has got while it has the guard of the infer request. -/
inductive Call (κ τ : Type)
  | constructed
  | givingInputs (keeper : OutputKeeper κ) (todo : List (String × TensorInfo))
  | givingOutputs (keeper : OutputKeeper κ) (todo : List (String × TensorInfo))
  | starting (keeper : OutputKeeper κ)
  | inferring (keeper : OutputKeeper κ)
  | serializing (keeper : OutputKeeper κ) (caught : Bool) (response : List (String × τ)) (todo : List (String × TensorInfo))
  /-- In the destructor of the keeper. -/
  | restoring (keeper : OutputKeeper κ) (answer : Answer τ)
  | restored (answer : Answer τ)
  /-- `start_async` threw in `modelInferAsync`, and the callback that never runs has the guards. -/
  | abandoned (keeper : OutputKeeper κ)

def Call.isRestored : Call κ τ → Bool
  | .restored _ => true
  | _ => false

/-- How a step of a request turns out. -/
inductive Event (τ : Type)
  | proceeds
  | fails
  /-- An exception is thrown, `standard` or not, and the inference has left this in the outputs. -/
  | throws (standard : Bool) (left : String → τ)

namespace ModelInstance

variable (inst : ModelInstance τ)

/-- `checkForOutputTensorResetAbility`. -/
def doesSupportOutputReset : Bool := inst.outputsInfo.all fun entry => inst.hasTensor entry.1

def outputKeeper (r : InferRequest κ τ) : OutputKeeper κ :=
  if inst.doesSupportOutputReset then
    inst.outputsInfo.filterMap fun entry => if inst.hasTensor entry.1 then some (entry.1, r.outputs entry.1) else none
  else []

/-- One turn of the loop over the inputs in `deserializePredictRequest`. -/
def giveInput (request : Request τ) (keeper : OutputKeeper κ) (todo : List (String × TensorInfo)) (r : InferRequest κ τ)
    (event : Event τ) : Call κ τ × InferRequest κ τ :=
  match todo with
  | [] => (.givingOutputs keeper inst.outputsInfo, r)
  | (name, tensorInfo) :: todo =>
    match event, request.input name with
    | .proceeds, some tensor => (.givingInputs keeper todo, r.setInput tensorInfo.name (some tensor))
    | _, _ => (.restoring keeper .error, r)

/-- One turn of the loop over the outputs in `deserializePredictRequest`. -/
def giveOutput (client : κ) (request : Request τ) (keeper : OutputKeeper κ) (todo : List (String × TensorInfo))
    (r : InferRequest κ τ) (event : Event τ) : Call κ τ × InferRequest κ τ :=
  match todo with
  | [] => (.starting keeper, r)
  | (name, tensorInfo) :: todo =>
    if request.setsOutput name then
      match event with
      | .proceeds => (.givingOutputs keeper todo, r.setOutput tensorInfo.name (some client))
      | _ => (.restoring keeper .error, r)
    else (.givingOutputs keeper todo, r)

/-- `start_async`. -/
def startAsync (request : Request τ) (keeper : OutputKeeper κ) (r : InferRequest κ τ) (event : Event τ) :
    Call κ τ × InferRequest κ τ :=
  match event with
  | .proceeds => (.inferring keeper, r)
  | _ => (if request.asynchronous then .abandoned keeper else .restoring keeper .error, r)

/-- The inference ends: `wait` returns, or the callback is called. -/
def endInference [DecidableEq κ] (request : Request τ) (keeper : OutputKeeper κ) (r : InferRequest κ τ) (event : Event τ) :
    Option (Call κ τ × InferRequest κ τ) :=
  match event with
  | .proceeds => some (.serializing keeper false [] inst.outputsInfo, r.write (inst.compute r.inputs))
  | .throws standard left =>
    -- the callback does not return after a standard exception
    some (if request.asynchronous && standard then .serializing keeper true [] inst.outputsInfo else .restoring keeper .error,
      r.write left)
  | .fails => none

/-- One turn of the loop in `serializePredictResponse`. -/
def serializeOutput (request : Request τ) (keeper : OutputKeeper κ) (caught : Bool) (response : List (String × τ))
    (todo : List (String × TensorInfo)) (r : InferRequest κ τ) (event : Event τ) : Call κ τ :=
  match todo with
  | [] => .restoring keeper (.success caught response)
  | (name, tensorInfo) :: todo =>
    match event with
    | .proceeds => .serializing keeper caught (response ++ [(name, r.getOutput tensorInfo.name)]) todo
    | .fails => .restoring keeper .error
    | .throws _ _ => .restoring keeper (if request.asynchronous then .success true response else .error)

/-- The next step of `infer` or of `modelInferAsync`. -/
def next [DecidableEq κ] (request : κ → Request τ) (client : κ) (call : Call κ τ) (r : InferRequest κ τ) (event : Event τ) :
    Option (Call κ τ × InferRequest κ τ) :=
  match call with
  | .constructed => some (.givingInputs (inst.outputKeeper r) inst.inputsInfo, r)
  | .givingInputs keeper todo => some (inst.giveInput (request client) keeper todo r event)
  | .givingOutputs keeper todo => some (giveOutput client (request client) keeper todo r event)
  | .starting keeper => some (startAsync (request client) keeper r event)
  | .inferring keeper => inst.endInference (request client) keeper r event
  | .serializing keeper caught response todo => some (serializeOutput (request client) keeper caught response todo r event, r)
  | .restoring [] answer => some (.restored answer, r)
  | .restoring ((name, owner) :: keeper) answer => some (.restoring keeper answer, r.setOutput name owner)
  | .restored _ | .abandoned _ => none

def body [DecidableEq κ] (request : κ → Request τ) : StreamIdGuard.Body κ (InferRequest κ τ) (Call κ τ) (Event τ) Unit where
  begins := .constructed
  next := inst.next request
  alone := fun _ _ => none
  ends := Call.isRestored

/-- The outputs whose tensors are set back. -/
def kept : List String := if inst.doesSupportOutputReset then inst.outputsInfo.map Prod.fst else []

/-- The inputs of a request, as it gives them to an infer request. -/
def feed (request : Request τ) (inputs : String → Option τ) (todo : List (String × TensorInfo)) : String → Option τ :=
  todo.foldl (fun inputs entry => Function.update inputs entry.2.name (request.input entry.1)) inputs

/-- What the model computes from the inputs of a request and nothing else. -/
def results (request : Request τ) : List (String × τ) :=
  inst.outputsInfo.map fun entry => (entry.1, inst.compute (feed request (fun _ => none) inst.inputsInfo) entry.2.name)

/-- What the infer requests of the queue are between two requests. -/
structure Idle (r : InferRequest κ τ) : Prop where
  inputs : ∀ name ∉ inst.inputsInfo.map fun entry => entry.2.name, r.inputs name = none
  outputs : ∀ name ∈ inst.kept, r.outputs name = none

/-- The keeper has the tensor that the infer request was created with for each output that is set back. -/
structure Covers (keeper : OutputKeeper κ) : Prop where
  kept : ∀ name ∈ inst.kept, (name, none) ∈ keeper
  own : ∀ entry ∈ keeper, entry.2 = none

def Answers (request : Request τ) (answer : Answer τ) : Prop :=
  ∀ response, answer = .success false response → response = inst.results request

/-- The infer request works for this client only. -/
structure Serves (request : Request τ) (client : κ) (r : InferRequest κ τ) : Prop where
  inputs : r.inputs = feed request (fun _ => none) inst.inputsInfo
  outputs : ∀ name ∈ inst.kept, r.outputs name = none ∨ r.outputs name = some client

/-- What holds of an infer request at each step of the call that has it. -/
def Holds (request : κ → Request τ) (client : κ) (call : Call κ τ) (r : InferRequest κ τ) : Prop :=
  (∀ name ∉ inst.inputsInfo.map fun entry => entry.2.name, r.inputs name = none) ∧
    match call with
    | .constructed => ∀ name ∈ inst.kept, r.outputs name = none
    | .givingInputs keeper todo => inst.Covers keeper ∧ (∀ name ∈ inst.kept, r.outputs name = none) ∧
      feed (request client) r.inputs todo = feed (request client) (fun _ => none) inst.inputsInfo ∧
      ∀ entry ∈ todo, entry ∈ inst.inputsInfo
    | .givingOutputs keeper _ | .starting keeper | .inferring keeper | .abandoned keeper =>
      inst.Covers keeper ∧ inst.Serves (request client) client r
    | .serializing keeper caught response todo => inst.Covers keeper ∧
      (caught = false → response ++ todo.map (fun entry => (entry.1, r.getOutput entry.2.name)) = inst.results (request client))
    | .restoring keeper answer => (∀ name ∈ inst.kept, r.outputs name = none ∨ (name, none) ∈ keeper) ∧
      (∀ entry ∈ keeper, entry.2 = none) ∧ inst.Answers (request client) answer
    | .restored answer => (∀ name ∈ inst.kept, r.outputs name = none) ∧ inst.Answers (request client) answer

theorem feed_cons (request : Request τ) (inputs : String → Option τ) (entry : String × TensorInfo)
    (todo : List (String × TensorInfo)) : feed request inputs (entry :: todo) =
      feed request (Function.update inputs entry.2.name (request.input entry.1)) todo :=
  rfl

theorem feed_congr {request : Request τ} {inputs inputs' : String → Option τ} (todo : List (String × TensorInfo))
    (hsame : ∀ name ∉ todo.map fun entry => entry.2.name, inputs name = inputs' name) :
    feed request inputs todo = feed request inputs' todo := by
  induction todo generalizing inputs inputs' with
  | nil => exact funext fun name => hsame name List.not_mem_nil
  | cons entry todo ih =>
    rw [feed_cons, feed_cons]
    refine ih fun name hname => ?_
    by_cases heq : name = entry.2.name
    · rw [heq, Function.update_self, Function.update_self]
    · rw [Function.update_of_ne heq, Function.update_of_ne heq]
      exact hsame name fun hmem => (List.mem_cons.mp hmem).elim heq hname

variable {inst} {request : κ → Request τ} {client : κ} {r : InferRequest κ τ}

theorem covers_outputKeeper (houtputs : ∀ name ∈ inst.kept, r.outputs name = none) : inst.Covers (inst.outputKeeper r) := by
  unfold kept at houtputs
  constructor
  · intro name hname
    unfold kept at hname
    unfold outputKeeper
    split at hname
    next hsupports =>
      rw [if_pos hsupports]
      obtain ⟨entry, hentry, rfl⟩ := List.mem_map.mp hname
      have htensor : inst.hasTensor entry.1 = true := List.all_eq_true.mp hsupports entry hentry
      refine List.mem_filterMap.mpr ⟨entry, hentry, ?_⟩
      rw [if_pos htensor, houtputs entry.1 (by rw [if_pos hsupports]; exact hname)]
    next => exact absurd hname List.not_mem_nil
  · intro entry hentry
    unfold outputKeeper at hentry
    split at hentry
    next hsupports =>
      obtain ⟨info, hinfo, hkept⟩ := List.mem_filterMap.mp hentry
      split at hkept
      next =>
        cases Option.some.inj hkept
        refine houtputs info.1 ?_
        rw [if_pos hsupports]
        exact List.mem_map.mpr ⟨info, hinfo, rfl⟩
      next => cases hkept
    next => exact absurd hentry List.not_mem_nil

theorem answers_error : inst.Answers (request client) .error := fun _ herror => by cases herror

theorem answers_caught (response : List (String × τ)) : inst.Answers (request client) (.success true response) :=
  fun _ hsuccess => by cases hsuccess

theorem Covers.restores {keeper : OutputKeeper κ} (h : inst.Covers keeper) {answer : Answer τ}
    (hinputs : ∀ name ∉ inst.inputsInfo.map fun entry => entry.2.name, r.inputs name = none)
    (hanswer : inst.Answers (request client) answer) : inst.Holds request client (.restoring keeper answer) r :=
  ⟨hinputs, fun name hname => Or.inr (h.kept name hname), h.own, hanswer⟩

theorem Holds.giveInput {keeper : OutputKeeper κ} {todo : List (String × TensorInfo)} (event : Event τ)
    (h : inst.Holds request client (.givingInputs keeper todo) r) :
    inst.Holds request client (inst.giveInput (request client) keeper todo r event).1
      (inst.giveInput (request client) keeper todo r event).2 := by
  obtain ⟨hinputs, hcovers, houtputs, hfeed, htodo⟩ := h
  cases todo with
  | nil => exact ⟨hinputs, hcovers, hfeed, fun name hname => Or.inl (houtputs name hname)⟩
  | cons entry todo =>
    unfold ModelInstance.giveInput
    split
    next => contradiction
    next name tensorInfo rest heq =>
      cases heq
      split
      next tensor htensor =>
        refine ⟨fun other hother => ?_, hcovers, houtputs, ?_, fun e he => htodo e (List.mem_cons_of_mem _ he)⟩
        · have hne : other ≠ tensorInfo.name := fun heq =>
            hother (List.mem_map.mpr ⟨_, htodo _ List.mem_cons_self, heq.symm⟩)
          exact (Function.update_of_ne hne _ _).trans (hinputs other hother)
        · rw [feed_cons, htensor] at hfeed
          exact hfeed
      next => exact hcovers.restores hinputs answers_error

theorem Holds.giveOutput {keeper : OutputKeeper κ} {todo : List (String × TensorInfo)} (event : Event τ)
    (h : inst.Holds request client (.givingOutputs keeper todo) r) :
    inst.Holds request client (ModelInstance.giveOutput client (request client) keeper todo r event).1
      (ModelInstance.giveOutput client (request client) keeper todo r event).2 := by
  obtain ⟨hinputs, hcovers, hserves⟩ := h
  unfold ModelInstance.giveOutput
  split
  next => exact ⟨hinputs, hcovers, hserves⟩
  next name tensorInfo rest =>
    split
    next =>
      split
      next =>
        refine ⟨hinputs, hcovers, hserves.inputs, fun other hother => ?_⟩
        by_cases heq : other = tensorInfo.name
        · exact Or.inr (heq ▸ Function.update_self _ _ _)
        · have hsame : (r.setOutput tensorInfo.name (some client)).outputs other = r.outputs other :=
            Function.update_of_ne heq _ _
          rw [hsame]
          exact hserves.outputs other hother
      next => exact hcovers.restores hinputs answers_error
    next => exact ⟨hinputs, hcovers, hserves⟩

theorem Holds.startAsync {keeper : OutputKeeper κ} (event : Event τ) (h : inst.Holds request client (.starting keeper) r) :
    inst.Holds request client (ModelInstance.startAsync (request client) keeper r event).1
      (ModelInstance.startAsync (request client) keeper r event).2 := by
  obtain ⟨hinputs, hcovers, hserves⟩ := h
  unfold ModelInstance.startAsync
  split
  next => exact ⟨hinputs, hcovers, hserves⟩
  next =>
    split
    next => exact ⟨hinputs, hcovers, hserves⟩
    next => exact hcovers.restores hinputs answers_error

theorem Holds.serializeOutput {keeper : OutputKeeper κ} {caught : Bool} {response : List (String × τ)}
    {todo : List (String × TensorInfo)} {event : Event τ}
    (h : inst.Holds request client (.serializing keeper caught response todo) r) :
    inst.Holds request client (ModelInstance.serializeOutput (request client) keeper caught response todo r event) r := by
  obtain ⟨hinputs, hcovers, hresponse⟩ := h
  unfold ModelInstance.serializeOutput
  split
  next =>
    refine hcovers.restores hinputs fun given hgiven => ?_
    obtain ⟨hcaught, hgiven⟩ := Answer.success.inj hgiven
    rw [← hresponse hcaught, List.map_nil, List.append_nil, hgiven]
  next name tensorInfo rest =>
    split
    next =>
      refine ⟨hinputs, hcovers, fun hcaught => ?_⟩
      rw [← hresponse hcaught, List.map_cons, List.append_assoc, List.singleton_append]
    next => exact hcovers.restores hinputs answers_error
    next =>
      split
      next => exact hcovers.restores hinputs (answers_caught response)
      next => exact hcovers.restores hinputs answers_error

theorem Holds.restore {name : String} {owner : Option κ} {keeper : OutputKeeper κ} {answer : Answer τ}
    (h : inst.Holds request client (.restoring ((name, owner) :: keeper) answer) r) :
    inst.Holds request client (.restoring keeper answer) (r.setOutput name owner) := by
  obtain ⟨hinputs, houtputs, hown, hanswer⟩ := h
  refine ⟨hinputs, fun other hother => ?_, fun entry hentry => hown entry (List.mem_cons_of_mem _ hentry), hanswer⟩
  have howner : owner = none := hown _ List.mem_cons_self
  by_cases heq : other = name
  · exact Or.inl (heq ▸ (Function.update_self _ _ _).trans howner)
  · have hsame : (r.setOutput name owner).outputs other = r.outputs other := Function.update_of_ne heq _ _
    rw [hsame]
    refine (houtputs other hother).imp_right fun hmem => (List.mem_cons.mp hmem).resolve_left fun hhead => ?_
    exact heq (Prod.mk.inj hhead).1

variable [DecidableEq κ]

theorem getOutput_write (left : String → τ) (name : String) : (r.write left).getOutput name = left name := if_pos rfl

theorem Holds.endInference {keeper : OutputKeeper κ} {event : Event τ} {after : Call κ τ × InferRequest κ τ}
    (h : inst.Holds request client (.inferring keeper) r)
    (hafter : inst.endInference (request client) keeper r event = some after) :
    inst.Holds request client after.1 after.2 := by
  obtain ⟨hinputs, hcovers, hserves⟩ := h
  unfold ModelInstance.endInference at hafter
  split at hafter
  next =>
    cases Option.some.inj hafter
    refine ⟨hinputs, hcovers, fun _ => ?_⟩
    rw [List.nil_append]
    refine List.map_congr_left fun entry _ => ?_
    rw [getOutput_write, hserves.inputs]
  next standard left =>
    cases Option.some.inj hafter
    dsimp only
    split
    next => exact ⟨hinputs, hcovers, fun hcaught => by cases hcaught⟩
    next => exact hcovers.restores (r := r.write left) hinputs answers_error
  next => cases hafter

theorem Holds.next {call call' : Call κ τ} {event : Event τ} {r' : InferRequest κ τ} (h : inst.Holds request client call r)
    (hnext : inst.next request client call r event = some (call', r')) : inst.Holds request client call' r' := by
  unfold ModelInstance.next at hnext
  split at hnext
  next =>
    cases Option.some.inj hnext
    obtain ⟨hinputs, houtputs⟩ := h
    exact ⟨hinputs, covers_outputKeeper houtputs, houtputs, feed_congr _ hinputs, fun _ hentry => hentry⟩
  next keeper todo =>
    have hstep := h.giveInput event
    rw [Option.some.inj hnext] at hstep
    exact hstep
  next keeper todo =>
    have hstep := h.giveOutput event
    rw [Option.some.inj hnext] at hstep
    exact hstep
  next keeper =>
    have hstep := h.startAsync event
    rw [Option.some.inj hnext] at hstep
    exact hstep
  next keeper => exact h.endInference hnext
  next keeper caught response todo =>
    cases Option.some.inj hnext
    exact h.serializeOutput
  next answer =>
    cases Option.some.inj hnext
    obtain ⟨hinputs, houtputs, -, hanswer⟩ := h
    exact ⟨hinputs, fun name hname => (houtputs name hname).resolve_right List.not_mem_nil, hanswer⟩
  next name owner keeper answer =>
    cases Option.some.inj hnext
    exact h.restore
  next => cases hnext
  next => cases hnext

/-- What has come of a request whose guard is destroyed. -/
def Ended (inst : ModelInstance τ) (request : κ → Request τ) (client : κ) (call : Call κ τ) : Prop :=
  ∃ answer, call = .restored answer ∧ inst.Answers (request client) answer

theorem keeps_body (inst : ModelInstance τ) (request : κ → Request τ) :
    StreamIdGuard.Keeps (inst.body request) inst.Idle (inst.Holds request) (inst.Ended request) where
  construct := fun hidle => ⟨hidle.inputs, hidle.outputs⟩
  work := fun hholds hnext => hholds.next hnext
  alone := fun hnothing => by cases hnothing
  destroy := by
    intro client call r hholds hends
    replace hends : call.isRestored = true := hends
    unfold Call.isRestored at hends
    split at hends
    next answer =>
      obtain ⟨hinputs, houtputs, hanswer⟩ := hholds
      exact ⟨⟨hinputs, houtputs⟩, answer, rfl, hanswer⟩
    next => cases hends

/-- The infer requests of the queue, as `create_infer_request` made them. -/
def created (memory : Int → Option κ → String → τ) (id : Int) : InferRequest κ τ where
  inputs := fun _ => none
  outputs := fun _ => none
  memory := memory id

def successor : ModelInstance Nat where
  inputsInfo := [("in", { TensorInfo.getUnspecifiedTensorInfo with name := "in" })]
  outputsInfo := [("out", { TensorInfo.getUnspecifiedTensorInfo with name := "out" })]
  hasTensor := fun _ => true
  compute := fun inputs _ => (inputs "in").getD 0 + 1

/-- Both clients set the memory of the output. -/
def twoRequests (client : Nat) : Request Nat where
  asynchronous := client = 2
  input := fun _ => some client
  setsOutput := fun _ => true

/-- One request after the other on the only infer request. -/
def inTurn : List (StreamIdGuard.Action Nat (Event Nat) Unit) :=
  [StreamIdGuard.Action.construct 1, .take, .setValue ⟨0, 1⟩ 0, .get ⟨0, 1⟩ 0] ++
    List.replicate 11 (StreamIdGuard.Action.work 1 Event.proceeds) ++
    [StreamIdGuard.Action.construct 2, .push, .destroy 1, .setValue ⟨1, 2⟩ 0, .get ⟨1, 2⟩ 0] ++
    List.replicate 6 (StreamIdGuard.Action.work 2 Event.proceeds)

end ModelInstance

end ModelServer.Inference
