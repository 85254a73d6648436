import ModelServer.CheckedSteps
import ModelServer.RestRequestData

namespace ModelServer.RestRequest

open KServe CheckedSteps

section Parameters

/-- What a JSON value says as a parameter. -/
def SaysParameter : Node → InferParameter → Prop
  | .string s, .stringParam s' => s' = s
  | .bool b, .boolParam b' => b' = b
  | .number (.integer n _), .int64Param k => k.toInt = n
  | _, _ => False

/-- An object says some parameters, and each name once. -/
structure SaysParameters (members : List (Str × Node)) (parameters : List (Str × InferParameter)) : Prop where
  each : List.Forall₂ (fun m p => m.1 = p.1 ∧ SaysParameter m.2 p.2) members parameters
  distinct : (parameters.map Prod.fst).Nodup

/-- The parameters of an object, of which there may be none. -/
def SaysOwnParameters (members : List (Str × Node)) (parameters : List (Str × InferParameter)) : Prop :=
  match members.lookup (bytes "parameters") with
  | none => parameters = []
  | some (.object named) => SaysParameters named parameters
  | some _ => False

/-- A map holds some parameters. -/
def SameParameters (parameters stored : List (Str × InferParameter)) : Prop :=
  ∀ name, stored.lookup name = parameters.lookup name

/-- An integer is in the range of `int`. -/
def fitsInt : InferParameter → Bool
  | .int64Param n => -2 ^ 31 ≤ n.toInt ∧ n.toInt < 2 ^ 31
  | _ => true

def cutParameter : InferParameter → InferParameter
  | .stringParam s => .stringParam (cStr s)
  | parameter => parameter

/-- A parameter that is stored as it is. -/
def KeptParameter (parameter : Str × InferParameter) : Prop :=
  fitsInt parameter.2 = true ∧ 0 ∉ parameter.1 ∧ cutParameter parameter.2 = parameter.2

theorem parameter?_eq {node : Node} {parameter : InferParameter} (h : SaysParameter node parameter) :
    parameter? node = if fitsInt parameter then some (cutParameter parameter) else none := by
  cases parameter with
  | notSet => cases node with
    | number n => cases n <;> cases h
    | _ => cases h
  | boolParam b =>
    cases node with
    | bool b' => exact congrArg (fun b : Bool => some (InferParameter.boolParam b)) h.symm
    | number n => cases n <;> cases h
    | _ => cases h
  | stringParam s =>
    cases node with
    | string s' => exact congrArg (fun s : Str => some (InferParameter.stringParam (cStr s))) h.symm
    | number n => cases n <;> cases h
    | _ => cases h
  | int64Param k =>
    cases node with
    | number n =>
      cases n with
      | integer n hn =>
        obtain rfl : k.toInt = n := h
        show ((Node.number (.integer k.toInt hn)).int?.map fun n => InferParameter.int64Param (BitVec.ofInt 64 n)) = _
        by_cases hrange : -2 ^ 31 ≤ k.toInt ∧ k.toInt < 2 ^ 31
        · have hint : (Node.number (.integer k.toInt hn)).int? = some k.toInt := if_pos hrange
          have hfits : fitsInt (.int64Param k) = true := decide_eq_true hrange
          rw [hint, hfits, if_pos rfl, Option.map_some, BitVec.ofInt_toInt]
          rfl
        · have hint : (Node.number (.integer k.toInt hn)).int? = none := if_neg hrange
          have hfits : fitsInt (.int64Param k) = false := decide_eq_false hrange
          rw [hint, hfits]
          rfl
      | double bits hbits => cases h
    | _ => cases h

def storedParameters (parameters stored : List (Str × InferParameter)) : List (Str × InferParameter) :=
  parameters.foldl (fun stored p => setParameter (cStr p.1) (cutParameter p.2) stored) stored

variable {members : List (Str × Node)} {parameters stored : List (Str × InferParameter)}

theorem parseParameters_eq (h : List.Forall₂ (fun m p => m.1 = p.1 ∧ SaysParameter m.2 p.2) members parameters)
    (stored : List (Str × InferParameter)) : parseParameters members stored =
      if parameters.all fun p => fitsInt p.2 then .ok (storedParameters parameters stored) else .error .restCouldNotParseParameters := by
  induction h generalizing stored with
  | nil => rfl
  | @cons m p members parameters hfirst _ ih =>
    obtain ⟨hname, hsays⟩ := hfirst
    rw [parseParameters, parameter?_eq hsays, hname, List.all_cons]
    cases hfits : fitsInt p.2 with
    | false => rfl
    | true =>
      rw [if_pos rfl, Bool.true_and]
      exact ih _

theorem lookup_cons_eq {α : Type} (key : Str) (entry : Str × α) (entries : List (Str × α)) :
    (entry :: entries).lookup key = if key = entry.1 then some entry.2 else entries.lookup key := by
  rw [List.lookup_cons]
  by_cases hkey : key = entry.1
  · rw [if_pos hkey, beq_iff_eq.mpr hkey]
  · rw [if_neg hkey, beq_eq_false_iff_ne.mpr hkey]

theorem lookup_setParameter (name key : Str) (parameter : InferParameter) :
    (setParameter name parameter stored).lookup key = if key = name then some parameter else stored.lookup key := by
  induction stored with
  | nil => exact lookup_cons_eq key (name, parameter) []
  | cons entry stored ih =>
    rw [setParameter]
    split
    next hentry =>
      rw [lookup_cons_eq, lookup_cons_eq, hentry]
      split <;> rfl
    next hentry =>
      rw [lookup_cons_eq, lookup_cons_eq, ih]
      split
      next hkey => rw [if_neg (fun h => hentry (hkey.symm.trans h))]
      next => rfl

theorem noNul_cStr (s : Str) : 0 ∉ cStr s := by
  intro hmem
  rw [cStr] at hmem
  have hne := List.mem_takeWhile_imp hmem
  exact of_decide_eq_true hne rfl

/-- A name with a NUL is not found. -/
theorem lookup_storedParameters_nul {name : Str} (h : 0 ∈ name) :
    (storedParameters parameters stored).lookup name = stored.lookup name := by
  induction parameters generalizing stored with
  | nil => rfl
  | cons p parameters ih =>
    have hnext : (storedParameters (p :: parameters) stored).lookup name = (setParameter (cStr p.1) (cutParameter p.2) stored).lookup name := ih
    rw [hnext, lookup_setParameter, if_neg]
    rintro rfl
    exact noNul_cStr p.1 h

theorem lookup_storedParameters (hdistinct : (parameters.map Prod.fst).Nodup) (hnul : ∀ p ∈ parameters, 0 ∉ p.1) (name : Str) :
    (storedParameters parameters stored).lookup name = ((parameters.lookup name).map cutParameter).or (stored.lookup name) := by
  induction parameters generalizing stored with
  | nil => rfl
  | cons p parameters ih =>
    obtain ⟨hnew, hdistinct⟩ := List.nodup_cons.mp hdistinct
    obtain ⟨hfirst, hrest⟩ := List.forall_mem_cons.mp hnul
    have hnext : (storedParameters (p :: parameters) stored).lookup name =
        ((parameters.lookup name).map cutParameter).or ((setParameter (cStr p.1) (cutParameter p.2) stored).lookup name) := ih hdistinct hrest
    rw [hnext, lookup_setParameter, cStr_eq_iff.mpr hfirst, lookup_cons_eq]
    by_cases hname : name = p.1
    · have hnone : parameters.lookup name = none := by
        refine List.lookup_eq_none_iff.mpr fun q hq => ?_
        rw [bne_iff_ne, hname]
        intro heq
        exact hnew (heq ▸ List.mem_map_of_mem hq)
      rw [hnone, if_pos hname, if_pos hname]
      rfl
    · rw [if_neg hname, if_neg hname]

theorem lookup_of_mem (hdistinct : (parameters.map Prod.fst).Nodup) {p : Str × InferParameter} (hp : p ∈ parameters) :
    parameters.lookup p.1 = some p.2 := by
  induction parameters with
  | nil => cases hp
  | cons q parameters ih =>
    obtain ⟨hnew, hdistinct⟩ := List.nodup_cons.mp hdistinct
    rw [lookup_cons_eq]
    obtain rfl | hp := List.mem_cons.mp hp
    · exact if_pos rfl
    · have hne : p.1 ≠ q.1 := fun heq => hnew (heq ▸ List.mem_map_of_mem hp)
      rw [if_neg hne]
      exact ih hdistinct hp

/-- The map holds the parameters of the body if and only if each of them is kept. -/
theorem parseParameters_iff (h : SaysParameters members parameters) :
    (∃ stored, parseParameters members [] = .ok stored ∧ SameParameters parameters stored) ↔ ∀ p ∈ parameters, KeptParameter p := by
  rw [parseParameters_eq h.each]
  constructor
  · intro ⟨stored, hok, hsame⟩ p hp
    split at hok
    next hfits =>
      obtain rfl := Except.ok.inj hok
      have hnul : ∀ q ∈ parameters, 0 ∉ q.1 := by
        intro q hq hmem
        have hlookup := hsame q.1
        rw [lookup_storedParameters_nul hmem, lookup_of_mem h.distinct hq] at hlookup
        cases hlookup
      have hlookup := hsame p.1
      rw [lookup_storedParameters h.distinct hnul, lookup_of_mem h.distinct hp] at hlookup
      exact ⟨List.all_eq_true.mp hfits p hp, hnul p hp, Option.some.inj hlookup⟩
    next => cases hok
  · intro hkept
    refine ⟨storedParameters parameters [], if_pos (List.all_eq_true.mpr fun p hp => (hkept p hp).1), fun name => ?_⟩
    rw [lookup_storedParameters h.distinct fun p hp => (hkept p hp).2.1]
    cases hfound : parameters.lookup name with
    | none => rfl
    | some parameter =>
      obtain ⟨before, after, heq, -⟩ := List.lookup_eq_some_iff.mp hfound
      have hmem : (name, parameter) ∈ parameters := by
        rw [heq]
        exact List.mem_append_right _ List.mem_cons_self
      exact congrArg some (hkept (name, parameter) hmem).2.2

theorem parseOwnParameters_iff (h : SaysOwnParameters members parameters) :
    (∃ stored, parseOwnParameters members = .ok stored ∧ SameParameters parameters stored) ↔ ∀ p ∈ parameters, KeptParameter p := by
  rw [SaysOwnParameters] at h
  rw [parseOwnParameters]
  split at h
  next hnone =>
    subst h
    rw [hnone]
    exact iff_of_true ⟨[], rfl, fun _ => rfl⟩ nofun
  next named hsome =>
    rw [hsome]
    exact parseParameters_iff h
  next => exact h.elim

end Parameters

section Bodies

/-- An input of a body. -/
structure InputObject where
  name : Str
  shape : List (BitVec 64)
  datatype : Datatype
  parameters : List (Str × InferParameter)
  /-- Nothing for an input of which the data follows the body. -/
  data : Option (List Node)

/-- What a body says. -/
structure Body where
  id : Option Str
  parameters : List (Str × InferParameter)
  inputs : List InputObject
  outputs : List RequestedOutput

def SaysDimension (node : Node) (dim : BitVec 64) : Prop :=
  0 ≤ dim.toInt ∧ ∃ h, node = .number (.integer dim.toInt h)

structure SaysInput (members : List (Str × Node)) (input : InputObject) : Prop where
  name : members.lookup (bytes "name") = some (.string input.name)
  shape : ∃ dims, members.lookup (bytes "shape") = some (.array dims) ∧ List.Forall₂ SaysDimension dims input.shape
  datatype : members.lookup (bytes "datatype") = some (.string input.datatype.text)
  parameters : SaysOwnParameters members input.parameters
  data : members.lookup (bytes "data") = input.data.map .array
  elements : ∀ values, input.data = some values → input.datatype ≠ .FP16 ∧ ∀ value ∈ leavesOf values, InRange input.datatype value
  following : input.data = none → (input.parameters.lookup (bytes "binary_data_size")).isSome

structure SaysOutput (members : List (Str × Node)) (output : RequestedOutput) : Prop where
  name : members.lookup (bytes "name") = some (.string output.name)
  parameters : SaysOwnParameters members output.parameters

/-- The members of an object say something. -/
def Object {α : Type} (Says : List (Str × Node) → α → Prop) (node : Node) (a : α) : Prop :=
  ∃ members, node = .object members ∧ Says members a

/-- An object is a body of the format. -/
structure SaysBody (members : List (Str × Node)) (body : Body) : Prop where
  id : members.lookup (bytes "id") = body.id.map .string
  parameters : SaysOwnParameters members body.parameters
  inputs : ∃ nodes, members.lookup (bytes "inputs") = some (.array nodes) ∧ nodes ≠ [] ∧ List.Forall₂ (Object SaysInput) nodes body.inputs
  outputs : members.lookup (bytes "outputs") = none ∧ body.outputs = [] ∨
    ∃ nodes, members.lookup (bytes "outputs") = some (.array nodes) ∧ List.Forall₂ (Object SaysOutput) nodes body.outputs

/-- A text is a body of the format, and within the depth limit. -/
def IsBody (reader : Reader) (json : Str) (body : Body) : Prop :=
  ∃ node, reader.document json = some node ∧ node.depth ≤ MAX_NESTING_DEPTH ∧ Object SaysBody node body

structure SameInput (input : InputObject) (tensor : InferTensor) : Prop where
  name : tensor.name = input.name
  shape : tensor.shape = input.shape
  datatype : tensor.datatype = input.datatype.text
  parameters : SameParameters input.parameters tensor.parameters
  contents : ∀ values, input.data = some values → SameContents input.datatype (leavesOf values) tensor.contents
  following : input.data = none → tensor.contents = {}

structure SameOutput (output requested : RequestedOutput) : Prop where
  name : requested.name = output.name
  parameters : SameParameters output.parameters requested.parameters

/-- A request has the inputs and the requested outputs of a body, in their order. -/
structure SameRequest (body : Body) (request : ModelInferRequest) : Prop where
  inputs : List.Forall₂ SameInput body.inputs request.inputs
  outputs : List.Forall₂ SameOutput body.outputs request.outputs

/-- An input that is converted as it is. -/
structure KeptInput (input : InputObject) : Prop where
  name : 0 ∉ input.name
  shape : ∀ dim ∈ input.shape, dim.toInt < 2 ^ 31
  parameters : ∀ p ∈ input.parameters, KeptParameter p
  data : ∀ values, input.data = some values → ∀ value ∈ leavesOf values, KeptValue input.datatype value

structure KeptOutput (output : RequestedOutput) : Prop where
  name : 0 ∉ output.name
  parameters : ∀ p ∈ output.parameters, KeptParameter p

/-- A body that is converted as it is: no two outputs are requested, and all integers are in the range of `int`. -/
structure KeptBody (body : Body) : Prop where
  parameters : ∀ p ∈ body.parameters, fitsInt p.2 = true
  inputs : ∀ input ∈ body.inputs, KeptInput input
  outputs : ∀ output ∈ body.outputs, KeptOutput output
  single : body.outputs.length ≤ 1

variable {members : List (Str × Node)}

theorem stringMember_eq {name : String} {s : Str} (h : members.lookup (bytes name) = some (.string s)) : stringMember members name = some (cStr s) := by
  rw [stringMember, h]
  rfl

theorem parseDimension_iff (node : Node) (dim : BitVec 64) (h : SaysDimension node dim) :
    (∃ parsed, parseDimension node = .ok parsed ∧ dim = parsed) ↔ dim.toInt < 2 ^ 31 := by
  obtain ⟨hpos, hn, rfl⟩ := h
  rw [parseDimension]
  by_cases hlt : dim.toInt < 2 ^ 31
  · have hint : (Node.number (.integer dim.toInt hn)).int? = some dim.toInt := if_pos ⟨by omega, hlt⟩
    refine iff_of_true ⟨dim, ?_, rfl⟩ hlt
    simp only [hint, if_neg (Int.not_lt.mpr hpos), BitVec.ofInt_toInt]
  · have hint : (Node.number (.integer dim.toInt hn)).int? = none := if_neg fun hrange => hlt hrange.2
    refine iff_of_false ?_ hlt
    rw [hint]
    rintro ⟨_, hok, _⟩
    cases hok

theorem dataDatatype_text {datatype : Datatype} (h : datatype ≠ .FP16) : dataDatatype datatype.text = some datatype := by
  rw [dataDatatype, Datatype.ofText_text, Option.filter_some, if_pos (decide_eq_true h)]

theorem parseInputData_keeps {tensor parsed : InferTensor} {onlyOneInput : Bool}
    (h : parseInputData members tensor onlyOneInput = .ok parsed) : parsed = { tensor with contents := parsed.contents } := by
  rw [parseInputData] at h
  split at h
  next data _ =>
    split at h
    · cases h
    · split at h
      · cases h
      · obtain ⟨contents, -, hok⟩ := bind_eq_ok.mp h
        obtain rfl := Except.ok.inj hok
        rfl
  next =>
    split at h
    · obtain rfl := Except.ok.inj h
      rfl
    · obtain ⟨_, -, hok⟩ := bind_eq_ok.mp h
      obtain rfl := Except.ok.inj hok
      rfl

/-- The data of an input, with its parameters as the body has them. -/
theorem parseInputData_iff {input : InputObject} (h : SaysInput members input) (tensor : InferTensor) (onlyOneInput : Bool)
    (hdatatype : tensor.datatype = input.datatype.text) (hparameters : SameParameters input.parameters tensor.parameters)
    (hempty : tensor.contents = {}) :
    (∃ parsed, parseInputData members tensor onlyOneInput = .ok parsed ∧
      (∀ values, input.data = some values → SameContents input.datatype (leavesOf values) parsed.contents) ∧
      (input.data = none → parsed.contents = {})) ↔
      ∀ values, input.data = some values → ∀ value ∈ leavesOf values, KeptValue input.datatype value := by
  cases hdata : input.data with
  | none =>
    refine iff_of_true ⟨tensor, ?_, nofun, fun _ => hempty⟩ nofun
    have hfollowing := h.following hdata
    rw [← hparameters] at hfollowing
    rw [parseInputData, h.data, hdata, Option.map_none, if_pos hfollowing]
  | some values =>
    obtain ⟨hfp16, hrange⟩ := h.elements values hdata
    have hhandled := dataDatatype_text hfp16
    have hnames : ¬(input.datatype.text = bytes "FP16" ∨ input.datatype.text = bytes "BF16") := by
      revert hfp16
      cases input.datatype <;> decide
    have hparse : parseInputData members tensor onlyOneInput = (do
        return { tensor with contents := ← addElements input.datatype {} (leavesOf values) }) := by
      rw [parseInputData, h.data, hdata, Option.map_some]
      simp only [Node.isArray, Bool.true_eq_false, if_false, if_neg hnames, hdatatype, hempty, parseData_eq hhandled, if_true]
      rfl
    have hiff := addElements_iff hrange
    rw [hparse]
    constructor
    · intro ⟨parsed, hok, hsame, _⟩ values' heq
      obtain rfl := Option.some.inj heq
      obtain ⟨contents, hadded, hok⟩ := bind_eq_ok.mp hok
      obtain rfl := Except.ok.inj hok
      exact hiff.mp ⟨contents, hadded, hsame _ rfl⟩
    · intro hkept
      obtain ⟨contents, hadded, hsame⟩ := hiff.mpr (hkept values rfl)
      refine ⟨{ tensor with contents := contents }, by rw [hadded]; rfl, fun values' heq => ?_, nofun⟩
      obtain rfl := Option.some.inj heq
      exact hsame

/-- An input is parsed to what the body says of it if and only if it is kept. -/
theorem parseInput_iff (onlyOneInput : Bool) (node : Node) (input : InputObject) (h : Object SaysInput node input) :
    (∃ tensor, parseInput node onlyOneInput = .ok tensor ∧ SameInput input tensor) ↔ KeptInput input := by
  obtain ⟨members, rfl, h⟩ := h
  obtain ⟨dims, hdims, hshape⟩ := h.shape
  have hparse : parseInput (.object members) onlyOneInput = (do
      let shape ← dims.mapM parseDimension
      let parameters ← parseOwnParameters members
      parseInputData members ⟨cStr input.name, input.datatype.text, shape, parameters, {}⟩ onlyOneInput) := by
    have htext : cStr input.datatype.text = input.datatype.text := by
      cases input.datatype <;> decide
    rw [parseInput, stringMember_eq h.name, hdims, stringMember_eq h.datatype, htext]
  have hdimsIff := mapM_iff hshape parseDimension_iff
  have hparametersIff := parseOwnParameters_iff h.parameters
  rw [hparse]
  constructor
  · intro ⟨tensor, hok, hsame⟩
    obtain ⟨shape, hshape, hok⟩ := bind_eq_ok.mp hok
    obtain ⟨parameters, hparameters, hok⟩ := bind_eq_ok.mp hok
    have hkeeps := parseInputData_keeps hok
    have hshapeSame : shape = input.shape := (congrArg InferTensor.shape hkeeps).symm.trans hsame.shape
    have hnameSame : cStr input.name = input.name := (congrArg InferTensor.name hkeeps).symm.trans hsame.name
    have hparametersSame : SameParameters input.parameters parameters := by
      have hstored : tensor.parameters = parameters := congrArg InferTensor.parameters hkeeps
      rw [← hstored]
      exact hsame.parameters
    exact ⟨cStr_eq_iff.mp hnameSame, hdimsIff.mp ⟨shape, hshape, List.forall₂_eq_eq_eq ▸ hshapeSame.symm⟩,
      hparametersIff.mp ⟨parameters, hparameters, hparametersSame⟩,
      (parseInputData_iff h _ onlyOneInput rfl hparametersSame rfl).mp ⟨tensor, hok, hsame.contents, hsame.following⟩⟩
  · intro hkept
    obtain ⟨shape, hshape, heq⟩ := hdimsIff.mpr hkept.shape
    obtain rfl : input.shape = shape := List.forall₂_eq_eq_eq ▸ heq
    obtain ⟨parameters, hparameters, hsame⟩ := hparametersIff.mpr hkept.parameters
    obtain ⟨tensor, hok, hdata, hfollowing⟩ :=
      (parseInputData_iff h ⟨cStr input.name, input.datatype.text, input.shape, parameters, {}⟩ onlyOneInput rfl hsame rfl).mpr hkept.data
    have hkeeps := parseInputData_keeps hok
    refine ⟨tensor, by rw [hshape, hparameters]; exact hok, ?_⟩
    rw [hkeeps]
    exact ⟨cStr_eq_iff.mpr hkept.name, rfl, rfl, hsame, hdata, hfollowing⟩

theorem parseOutput_eq {output : RequestedOutput} (h : SaysOutput members output) (request : ModelInferRequest) :
    parseOutput (.object members) request = (do
      let parameters ← parseOwnParameters members
      return { request with outputs := [⟨cStr output.name, parameters⟩] }) := by
  rw [parseOutput, stringMember_eq h.name]

theorem parseOutput_iff {node : Node} {output : RequestedOutput} (h : Object SaysOutput node output) (request : ModelInferRequest) :
    (∃ parsed, parseOutput node request = .ok parsed ∧ List.Forall₂ SameOutput [output] parsed.outputs) ↔ KeptOutput output := by
  obtain ⟨members, rfl, h⟩ := h
  have hparametersIff := parseOwnParameters_iff h.parameters
  rw [parseOutput_eq h]
  constructor
  · intro ⟨parsed, hok, hsame⟩
    obtain ⟨parameters, hparameters, hok⟩ := bind_eq_ok.mp hok
    obtain rfl := Except.ok.inj hok
    obtain ⟨hfirst, -⟩ := List.forall₂_cons.mp hsame
    exact ⟨cStr_eq_iff.mp hfirst.name, hparametersIff.mp ⟨parameters, hparameters, hfirst.parameters⟩⟩
  · intro hkept
    obtain ⟨parameters, hparameters, hsame⟩ := hparametersIff.mpr hkept.parameters
    refine ⟨{ request with outputs := [⟨cStr output.name, parameters⟩] }, by rw [hparameters]; rfl, ?_⟩
    exact .cons ⟨cStr_eq_iff.mpr hkept.name, hsame⟩ .nil

theorem outputs_length {nodes : List Node} {outputs : List RequestedOutput} (h : List.Forall₂ (Object SaysOutput) nodes outputs)
    {request parsed : ModelInferRequest} (hok : nodes.foldlM (fun request output => parseOutput output request) request = .ok parsed)
    (hone : request.outputs.length ≤ 1) : parsed.outputs.length ≤ 1 := by
  induction h generalizing request with
  | nil =>
    obtain rfl := Except.ok.inj hok
    exact hone
  | cons hfirst _ ih =>
    obtain ⟨members, rfl, hfirst⟩ := hfirst
    rw [List.foldlM_cons, parseOutput_eq hfirst] at hok
    obtain ⟨next, hnext, hok⟩ := bind_eq_ok.mp hok
    obtain ⟨parameters, -, hnext⟩ := bind_eq_ok.mp hnext
    obtain rfl := Except.ok.inj hnext
    exact ih hok (Nat.le_refl 1)

/-- Of several outputs only the last one is still requested. -/
theorem parseOutputs_iff {nodes : List Node} {outputs : List RequestedOutput} (h : List.Forall₂ (Object SaysOutput) nodes outputs)
    {request : ModelInferRequest} (hnone : request.outputs = []) :
    (∃ parsed, nodes.foldlM (fun request output => parseOutput output request) request = .ok parsed ∧
      List.Forall₂ SameOutput outputs parsed.outputs) ↔ (∀ output ∈ outputs, KeptOutput output) ∧ outputs.length ≤ 1 := by
  have hsingle : outputs.length ≤ 1 → ((∃ parsed, nodes.foldlM (fun request output => parseOutput output request) request = .ok parsed ∧
      List.Forall₂ SameOutput outputs parsed.outputs) ↔ ∀ output ∈ outputs, KeptOutput output) := by
    intro hlength
    cases h with
    | nil => exact iff_of_true ⟨request, rfl, by rw [hnone]; exact .nil⟩ nofun
    | @cons node output nodes outputs hfirst hrest =>
      obtain rfl : outputs = [] := List.length_eq_zero_iff.mp (Nat.le_zero.mp (Nat.le_of_succ_le_succ hlength))
      cases hrest
      rw [List.forall_mem_singleton, ← parseOutput_iff hfirst request, List.foldlM_cons]
      refine exists_congr fun parsed => and_congr_left fun _ => ?_
      cases parseOutput node request <;> rfl
  constructor
  · intro ⟨parsed, hok, hsame⟩
    have hlength : outputs.length ≤ 1 := by
      rw [hsame.length_eq]
      exact outputs_length h hok (hnone ▸ Nat.zero_le 1)
    exact ⟨(hsingle hlength).mp ⟨parsed, hok, hsame⟩, hlength⟩
  · intro ⟨hkept, hlength⟩
    exact (hsingle hlength).mpr hkept

/-- A section of parameters is read if its integers are in the range of `int`. -/
theorem parseParametersSection {parameters : List (Str × InferParameter)} (h : SaysOwnParameters members parameters) (request : ModelInferRequest) :
    ∃ stored, parseSection members "parameters" parseRequestParameters request =
      if parameters.all fun p => fitsInt p.2 then .ok { request with parameters := stored } else .error .restCouldNotParseParameters := by
  rw [SaysOwnParameters] at h
  rw [parseSection]
  split at h
  next hnone =>
    subst h
    rw [hnone]
    exact ⟨request.parameters, rfl⟩
  next named hsome =>
    rw [hsome]
    refine ⟨storedParameters parameters request.parameters, ?_⟩
    simp only [parseRequestParameters, parseParameterObject, parseParameters_eq h.each]
    split <;> rfl
  next => exact h.elim

theorem parseOutputsSection_iff {body : Body} (h : SaysBody members body) {request : ModelInferRequest} (hnone : request.outputs = []) :
    (∃ parsed, parseSection members "outputs" parseOutputs request = .ok parsed ∧ List.Forall₂ SameOutput body.outputs parsed.outputs) ↔
      (∀ output ∈ body.outputs, KeptOutput output) ∧ body.outputs.length ≤ 1 := by
  rw [parseSection]
  obtain ⟨hmissing, hempty⟩ | ⟨nodes, hnodes, houtputs⟩ := h.outputs
  · rw [hmissing, hempty]
    exact iff_of_true ⟨request, rfl, by rw [hnone]; exact .nil⟩ ⟨nofun, Nat.zero_le 1⟩
  · rw [hnodes]
    exact parseOutputs_iff houtputs hnone

/-- A reader of one text. -/
def readerOf (text : Str) (node : Node) : Reader where
  sax json := if json = text then (node.sax, true) else ([], false)
  document json := if json = text then some node else none
  reads json other h := by
    obtain ⟨hjson, hnode⟩ := Option.ite_none_right_eq_some.mp h
    rw [if_pos hjson, Option.some.inj hnode]

/-- A body with one input of one number. -/
def oneNumber (datatype : Datatype) (n : Number) : Node :=
  .object [(bytes "inputs", .array [.object [(bytes "name", .string (bytes "a")), (bytes "shape", .array [.number (.integer 1 (by decide))]),
    (bytes "datatype", .string datatype.text), (bytes "data", .array [.number n])]])]

theorem oneNumber_isBody (datatype : Datatype) (n : Number) (hfp16 : datatype ≠ .FP16) (hrange : InRange datatype (.number n)) (json : Str) :
    IsBody (readerOf json (oneNumber datatype n)) json ⟨none, [], [⟨bytes "a", [1], datatype, [], some [.number n]⟩], []⟩ := by
  have hsays : SaysInput [(bytes "name", .string (bytes "a")), (bytes "shape", .array [.number (.integer 1 (by decide))]),
      (bytes "datatype", .string datatype.text), (bytes "data", .array [.number n])] ⟨bytes "a", [1], datatype, [], some [.number n]⟩ := by
    refine ⟨rfl, ⟨_, rfl, .cons ⟨by decide, by decide, rfl⟩ .nil⟩, rfl, rfl, rfl, fun values heq => ⟨hfp16, ?_⟩, nofun⟩
    obtain rfl := Option.some.inj heq
    exact List.forall_mem_singleton.mpr hrange
  have hdepth : (oneNumber datatype n).depth = 4 := rfl
  refine ⟨oneNumber datatype n, if_pos rfl, hdepth ▸ by decide, _, rfl, rfl, rfl, ⟨_, rfl, List.cons_ne_nil _ _, .cons ⟨_, rfl, hsays⟩ .nil⟩, .inl ⟨rfl, rfl⟩⟩

/-- `0.5`. -/
def half : Number := .double 0x3FE0000000000000 (by decide +kernel)

def halfText : Str :=
  bytes "\x7b\"inputs\":[\x7b\"name\":\"a\",\"shape\":[1],\"datatype\":\"FP64\",\"data\":[0.5]\x7d]\x7d"

end Bodies

end ModelServer.RestRequest
