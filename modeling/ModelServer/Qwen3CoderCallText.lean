import ModelServer.Qwen3CoderEnvelopes

namespace ModelServer.Qwen3CoderToolParser

open Occurrence

/-- A function and its parameters as their tags spell them. -/
structure SpelledCall where
  rawName : Str
  parameters : List (Str × Str)

/-- `mark` is the delimiter that ends a state entered before `text`. -/
def Ends (s : State) (text mark : Str) : Prop :=
  Earliest (delimiters s) (text ++ mark) mark text.length

/-- The text of a function up to its header or its last complete parameter. -/
inductive FunctionText : SpelledCall → Str → Prop
  | header {raw} : Ends .insideFunctionName raw XML_TAG_END →
      FunctionText ⟨raw, []⟩ (FUNCTION_NAME_TAG ++ (raw ++ XML_TAG_END))
  | parameter {rawName parameters text gap name value} : FunctionText ⟨rawName, parameters⟩ text →
      Ends .insideFunction gap PARAMETER_NAME_TAG → Ends .insideParameterName name XML_TAG_END →
      Ends .insideParameter value PARAMETER_END_TAG →
      FunctionText ⟨rawName, parameters ++ [(name, value)]⟩
        (text ++ (gap ++ PARAMETER_NAME_TAG) ++ (name ++ XML_TAG_END) ++ (value ++ PARAMETER_END_TAG))

/-- A function text with its `</function>`. -/
def CompleteText (c : SpelledCall) (text : Str) : Prop :=
  ∃ inside gap, FunctionText c inside ∧ Ends .insideFunction gap FUNCTION_END_TAG ∧
    text = inside ++ (gap ++ FUNCTION_END_TAG)

variable (rj : RapidJson) (ids : RandomIds) (types : ToolsParameterTypeMap)

/-- The function a spelling builds. -/
def SpelledCall.functool (c : SpelledCall) : Functool :=
  c.parameters.foldl
    (fun f parameter => addParameterToCurrentFunctionDoc rj types f
      (trimSurroundingQuotes parameter.1) parameter.2)
    { name := trimSurroundingQuotes c.rawName }

/-- One argument more, and no verdict on the call. -/
def Kept (f : Functool) (key : Str) (g : Functool) : Prop :=
  g.name = f.name ∧ g.invalidTypedArgument = f.invalidTypedArgument ∧
    g.argumentsAsDocument.map Prod.fst = f.argumentsAsDocument.map Prod.fst ++ [key]

theorem kept_addMember (f : Functool) (key : Str) (value : Json) :
    Kept f key (f.addMember key value) :=
  ⟨rfl, rfl, by simp [Functool.addMember]⟩

theorem addParsedParameter_cases (f : Functool) (expectedType : ParameterType) (key value : Str) :
    addParsedParameter rj f expectedType key value = f.invalidate ∨
      Kept f key (addParsedParameter rj f expectedType key value) := by
  unfold addParsedParameter
  simp only
  split
  · split
    · exact Or.inr (kept_addMember f key _)
    · exact Or.inl rfl
  · split
    · exact Or.inr (kept_addMember f key _)
    · exact Or.inl rfl

/-- A parameter is new and kept, or the call is spoiled. -/
theorem addParameterToCurrentFunctionDoc_cases (f : Functool) (key value : Str) :
    addParameterToCurrentFunctionDoc rj types f key value = f.invalidate ∨
      (f.hasMember key = false ∧ Kept f key (addParameterToCurrentFunctionDoc rj types f key value)) := by
  unfold addParameterToCurrentFunctionDoc
  simp only
  split
  · exact Or.inl rfl
  split
  · exact Or.inl rfl
  next hmember =>
  rw [Bool.not_eq_true] at hmember
  split
  · exact Or.inr ⟨hmember, kept_addMember f key _⟩
  split
  · exact (addParsedParameter_cases rj f _ key _).imp id fun h => ⟨hmember, h⟩
  split
  · exact Or.inr ⟨hmember, rfl, rfl, by simp [Functool.addMember]⟩
  split
  · exact (addParsedParameter_cases rj f _ key _).imp id fun h => ⟨hmember, h⟩
  · exact Or.inl rfl

theorem SpelledCall.functool_name (c : SpelledCall) :
    (c.functool rj types).name = trimSurroundingQuotes c.rawName := by
  obtain ⟨rawName, parameters⟩ := c
  simp only [SpelledCall.functool]
  induction parameters using List.reverseRecOn with
  | nil => rfl
  | append_singleton parameters parameter ih =>
    rw [List.foldl_append]
    rcases addParameterToCurrentFunctionDoc_cases rj types
      (parameters.foldl _ _) (trimSurroundingQuotes parameter.1) parameter.2 with hbad | ⟨_, hname, _⟩
    · exact (congrArg Functool.name hbad).trans ih
    · exact hname.trans ih

theorem hasMember_eq_false {f : Functool} {key : Str} :
    f.hasMember key = false ↔ key ∉ f.argumentsAsDocument.map Prod.fst := by
  simp only [Functool.hasMember, List.any_eq_false, beq_iff_eq, List.mem_map, not_exists, not_and]

/-- In a call that is not spoiled the names are distinct and every parameter is an argument. -/
theorem SpelledCall.functool_valid {c : SpelledCall}
    (h : (c.functool rj types).invalidTypedArgument = false) :
    (c.parameters.map fun parameter => trimSurroundingQuotes parameter.1).Nodup ∧
      (c.functool rj types).argumentsAsDocument.map Prod.fst =
        c.parameters.map fun parameter => trimSurroundingQuotes parameter.1 := by
  obtain ⟨rawName, parameters⟩ := c
  simp only [SpelledCall.functool] at h ⊢
  induction parameters using List.reverseRecOn with
  | nil => exact ⟨List.nodup_nil, rfl⟩
  | append_singleton parameters parameter ih =>
    rw [List.foldl_append] at h ⊢
    simp only [List.foldl_cons, List.foldl_nil, List.map_append, List.map_cons, List.map_nil] at h ⊢
    rcases addParameterToCurrentFunctionDoc_cases rj types _ (trimSurroundingQuotes parameter.1)
      parameter.2 with hbad | ⟨hnew, _, hvalid, hkeys⟩
    · rw [hbad] at h
      cases h
    · obtain ⟨hnodup, hall⟩ := ih (hvalid.symm.trans h)
      rw [hasMember_eq_false, hall] at hnew
      rw [hkeys, hall]
      refine ⟨?_, rfl⟩
      rw [List.nodup_append]
      refine ⟨hnodup, by simp, ?_⟩
      intro a ha b hb hab
      rw [List.mem_singleton] at hb
      exact hnew (by rwa [← hb, ← hab])

namespace Impl

def readText (p : Impl) : Str := p.streamContent.take p.lastProcessedPosition

/-- The text read so far spells the open call. -/
def Spells (p : Impl) : Prop :=
  match p.currentState with
  | .content => p.currentFunction = {}
  | .insideToolCall => p.currentFunction = {}
  | .insideFunctionName => p.currentFunction = {} ∧ ∃ pre, p.readText = pre ++ FUNCTION_NAME_TAG
  | .insideFunction => ∃ pre c text, FunctionText c text ∧ p.readText = pre ++ text ∧
      p.currentFunction = c.functool rj types
  | .insideParameterName => ∃ pre c text gap, FunctionText c text ∧
      Ends .insideFunction gap PARAMETER_NAME_TAG ∧
      p.readText = pre ++ (text ++ (gap ++ PARAMETER_NAME_TAG)) ∧
      p.currentFunction = c.functool rj types
  | .insideParameter => ∃ pre c text gap name, FunctionText c text ∧
      Ends .insideFunction gap PARAMETER_NAME_TAG ∧ Ends .insideParameterName name XML_TAG_END ∧
      p.readText = pre ++ (text ++ (gap ++ PARAMETER_NAME_TAG) ++ (name ++ XML_TAG_END)) ∧
      p.currentFunction = c.functool rj types ∧ p.currentParameterName = trimSurroundingQuotes name
  | .afterFunction => ∃ pre c text, CompleteText c text ∧ p.readText = pre ++ text ∧
      p.currentFunction = c.functool rj types

/-- A call comes from a spelling without an invalid or a repeated parameter. -/
structure ComesFrom (c : SpelledCall) (call : ToolCall) : Prop where
  valid : (c.functool rj types).invalidTypedArgument = false
  distinct : (c.parameters.map fun parameter => trimSurroundingQuotes parameter.1).Nodup
  complete : (c.functool rj types).argumentsAsDocument.map Prod.fst =
    c.parameters.map fun parameter => trimSurroundingQuotes parameter.1
  name : call.name = trimSurroundingQuotes c.rawName
  arguments : call.arguments = (c.functool rj types).argumentsAsString rj

/-- A call whose `</tool_call>` is in the text. -/
def ClosedIn (text : Str) (call : ToolCall) : Prop :=
  ∃ pre c inside gap post, CompleteText c inside ∧ Ends .afterFunction gap TOOL_END_TAG ∧
    text = pre ++ inside ++ (gap ++ TOOL_END_TAG) ++ post ∧ ComesFrom rj types c call

theorem completedCall_comesFrom {p : Impl} {c : SpelledCall} {call : ToolCall}
    (hfun : p.currentFunction = c.functool rj types) (hcall : call ∈ p.completedCall rj ids) :
    ComesFrom rj types c call := by
  unfold completedCall at hcall
  split at hcall
  next => cases hcall
  next hvalid =>
    rw [List.mem_singleton] at hcall
    subst hcall
    rw [hfun, Bool.not_eq_true] at hvalid
    obtain ⟨hdistinct, hcomplete⟩ := SpelledCall.functool_valid rj types hvalid
    exact ⟨hvalid, hdistinct, hcomplete, by rw [hfun, SpelledCall.functool_name], by rw [hfun]⟩

theorem readText_append {p : Impl} (hp : p.WellPlaced) (x : Str) :
    (p.append x).readText = p.readText := by
  simp [readText, append, List.take_append_of_le_length hp]

theorem readText_unread (p : Impl) : p.readText ++ p.unread = p.streamContent :=
  List.take_append_drop _ _

section Fire

variable {p : Impl} {m : Str} {i : Nat}

theorem fire_ends (h : Earliest (delimiters p.currentState) p.unread m i) :
    Ends p.currentState (p.unread.take i) m := h.cut

theorem fire_readText (h : Earliest (delimiters p.currentState) p.unread m i)
    (hm : m = TOOL_START_TAG → p.currentState = .content) (calls : List ToolCall) :
    (fire rj ids types p m i calls).1.readText = p.readText ++ (p.unread.take i ++ m) := by
  have hpos := fire_position rj ids types p m i calls h.mem
  rw [if_neg (by rintro ⟨rfl, hc⟩; exact hc (hm rfl))] at hpos
  have hsplit := h.here.split ((delimiters _).nonempty m h.mem)
  have hi : (p.unread.take i).length = i := by
    have := h.length_le
    simp only [List.length_take]
    omega
  rw [readText, hpos, fire_streamContent, Nat.add_assoc, List.take_add]
  congr 1
  rw [show p.streamContent.drop p.lastProcessedPosition = p.unread from rfl]
  conv_lhs => rw [hsplit, ← List.append_assoc]
  rw [List.take_left' (by simp [hi])]

theorem fire_abort_of_start (hc : p.currentState ≠ .content) (hm : m = TOOL_START_TAG)
    (calls : List ToolCall) : Spells rj types (fire rj ids types p m i calls).1 := by
  subst hm
  rw [fire_start_abort rj ids types hc]
  exact rfl

theorem fire_spells (hp : Spells rj types p)
    (h : Earliest (delimiters p.currentState) p.unread m i) (calls : List ToolCall) :
    Spells rj types (fire rj ids types p m i calls).1 := by
  by_cases hstart : m = TOOL_START_TAG ∧ p.currentState ≠ .content
  · exact fire_abort_of_start rj ids types hstart.2 hstart.1 calls
  have hread := fire_readText rj ids types h (by simpa using hstart) calls
  have hends := fire_ends h
  have hmem : m ∈ marks p.currentState := h.mem
  have hup := upTo_unread p i
  generalize p.unread.take i = before at *
  by_cases hend : m = TOOL_END_TAG
  · subst hend
    have hq : (fire rj ids types p TOOL_END_TAG i calls).1.currentState = .content := by
      cases hs : p.currentState <;> simp_all +decide [fire, marks]
    unfold Spells
    rw [hq]
    exact fire_cleared rj ids types p _ i calls hq
  unfold Spells at hp
  cases hs : p.currentState <;> rw [hs] at hp hends hmem <;> simp only at hp <;>
    simp only [marks, List.mem_cons, List.not_mem_nil, or_false, hend, hs, ne_eq,
      reduceCtorEq, not_false_eq_true, and_true, false_or] at hmem hstart
  case content =>
    rcases hmem with rfl | rfl
    · rw [fire_start_content rj ids types hs]
      exact hp
    · have hf : fire rj ids types p FUNCTION_NAME_TAG i calls =
          (p.openBareFunction (p.lastProcessedPosition + i), calls) := by simp +decide [fire, hs]
      rw [hf] at hread ⊢
      exact ⟨hp, _, hread.trans (List.append_assoc ..).symm⟩
  case insideToolCall =>
    obtain rfl | rfl := hmem
    · have hf : fire rj ids types p FUNCTION_NAME_TAG i calls =
          (p.openFunction (p.lastProcessedPosition + i), calls) := by simp +decide [fire, hs]
      rw [hf] at hread ⊢
      exact ⟨hp, _, hread.trans (List.append_assoc ..).symm⟩
    · exact absurd rfl hstart
  case insideFunctionName =>
    obtain rfl | rfl := hmem
    · have hf : fire rj ids types p XML_TAG_END i calls =
          (p.nameFunction (p.lastProcessedPosition + i), calls) := by simp +decide [fire, hs]
      obtain ⟨hp, pre, hpre⟩ := hp
      rw [hf] at hread ⊢
      refine ⟨pre, _, _, .header hends, ?_, ?_⟩
      · rw [hread, hpre, List.append_assoc]
      · simp [nameFunction, hup, hp, SpelledCall.functool]
    · exact absurd rfl hstart
  case insideFunction =>
    obtain ⟨pre, c, text, htext, hpre, hfun⟩ := hp
    obtain rfl | rfl | rfl := hmem
    · have hf : fire rj ids types p PARAMETER_NAME_TAG i calls =
          (p.openParameter (p.lastProcessedPosition + i), calls) := by simp +decide [fire, hs]
      rw [hf] at hread ⊢
      exact ⟨pre, c, text, before, htext, hends, by rw [hread, hpre, List.append_assoc], hfun⟩
    · have hf : fire rj ids types p FUNCTION_END_TAG i calls =
          (p.closeFunction (p.lastProcessedPosition + i), calls) := by simp +decide [fire, hs]
      rw [hf] at hread ⊢
      exact ⟨pre, c, _, ⟨text, before, htext, hends, rfl⟩, by rw [hread, hpre, List.append_assoc], hfun⟩
    · exact absurd rfl hstart
  case insideParameterName =>
    obtain ⟨pre, c, text, gap, htext, hgap, hpre, hfun⟩ := hp
    obtain rfl | rfl := hmem
    · have hf : fire rj ids types p XML_TAG_END i calls =
          (p.nameParameter (p.lastProcessedPosition + i), calls) := by simp +decide [fire, hs]
      rw [hf] at hread ⊢
      refine ⟨pre, c, text, gap, before, htext, hgap, hends, ?_, hfun, ?_⟩
      · rw [hread, hpre, List.append_assoc]
      · simp [nameParameter, hup]
    · exact absurd rfl hstart
  case insideParameter =>
    obtain ⟨pre, c, text, gap, name, htext, hgap, hname, hpre, hfun, hparam⟩ := hp
    obtain rfl | rfl := hmem
    · have hf : fire rj ids types p PARAMETER_END_TAG i calls =
          (p.closeParameter rj types (p.lastProcessedPosition + i), calls) := by simp +decide [fire, hs]
      rw [hf] at hread ⊢
      refine ⟨pre, _, _, .parameter htext hgap hname hends, ?_, ?_⟩
      · rw [hread, hpre, List.append_assoc]
      · simp [closeParameter, hup, hfun, hparam, SpelledCall.functool, List.foldl_append]
    · exact absurd rfl hstart
  case afterFunction => exact absurd hmem hstart

theorem fire_closedIn (hp : Spells rj types p)
    (h : Earliest (delimiters p.currentState) p.unread m i) {calls : List ToolCall} {call : ToolCall}
    (hcall : call ∈ (fire rj ids types p m i calls).2) :
    call ∈ calls ∨ ClosedIn rj types p.streamContent call := by
  by_cases hclose : p.currentState = .afterFunction ∧ m = TOOL_END_TAG
  · obtain ⟨hs, rfl⟩ := hclose
    have hends := fire_ends h
    have hsplit := h.here.split ((delimiters _).nonempty _ h.mem)
    rw [hs] at hends
    simp only [fire, hs, if_true, List.mem_append] at hcall
    rcases hcall with hcall | hcall
    · exact Or.inl hcall
    · right
      unfold Spells at hp
      simp only [hs] at hp
      obtain ⟨pre, c, text, htext, hpre, hfun⟩ := hp
      refine ⟨pre, c, text, p.unread.take i, p.unread.drop (i + TOOL_END_TAG.length), htext, hends,
        ?_, completedCall_comesFrom rj ids types hfun hcall⟩
      rw [← readText_unread, hpre]
      conv_lhs => rw [hsplit]
      simp only [List.append_assoc]
  · left
    cases hs : p.currentState <;> simp_all [fire]

end Fire

/-- What holds while a text is read: the state spells the open call, and every call found is closed in the text. -/
structure Sound (text : Str) (s : Impl × List ToolCall) : Prop where
  content : s.1.streamContent = text
  spells : Spells rj types s.1
  closed : ∀ call ∈ s.2, ClosedIn rj types text call

theorem parseAll_sound {p : Impl} (hp : Spells rj types p) :
    Sound rj types p.streamContent (p.parseAll rj ids types) := by
  refine (parseAll_exits rj ids types p).invariant (I := Sound rj types p.streamContent)
    (Q := Sound rj types p.streamContent) ?_ ?_ ⟨rfl, hp, by simp⟩
  · intro s t hs ht
    obtain ⟨m, i, he, rfl⟩ := parseBody_inl rj ids types ht
    refine ⟨?_, fire_spells rj ids types hs.spells he s.2, ?_⟩
    · rw [fire_streamContent, hs.content]
    · intro call hcall
      rcases fire_closedIn rj ids types hs.spells he hcall with hold | hnew
      · exact hs.closed call hold
      · rwa [hs.content] at hnew
  · intro s r hs hr
    obtain ⟨_, rfl⟩ := parseBody_inr rj ids types hr
    exact hs

/-- A call whose function is complete in the text and still open at its end. -/
def OpenIn (text : Str) (call : ToolCall) : Prop :=
  ∃ pre c inside gap, CompleteText c inside ∧
    (∀ m ∈ marks .afterFunction, ∀ i, ¬ At m gap i) ∧
    text = pre ++ inside ++ gap ∧ ComesFrom rj types c call

theorem toolEnd_clean : ∀ b ∈ (delimiters .afterFunction).marks, Clean TOOL_END_TAG b := by
  decide

/-- At a natural stop only the closing tag of a complete function is supplied. -/
theorem parseAll_append_toolEnd {p : Impl} (hw : p.WellPlaced) (hq : p.Quiet)
    (hs : p.currentState = .afterFunction) :
    ((p.append TOOL_END_TAG).parseAll rj ids types).2 = p.completedCall rj ids := by
  have hread := hw.unread_append TOOL_END_TAG
  have hquiet : ∀ b ∈ (delimiters .afterFunction).marks, ∀ i, ¬ At b p.unread i := by
    unfold Quiet at hq
    rwa [hs] at hq
  have hfirst : Earliest (delimiters (p.append TOOL_END_TAG).currentState)
      (p.append TOOL_END_TAG).unread TOOL_END_TAG p.unread.length := by
    rw [hread, show (p.append TOOL_END_TAG).currentState = .afterFunction from hs]
    have hafter : Earliest (delimiters .afterFunction) (p.unread ++ (TOOL_END_TAG ++ []))
        TOOL_END_TAG p.unread.length := earliest_after (by decide) toolEnd_clean hquiet
    rwa [List.append_nil] at hafter
  have hfire : fire rj ids types (p.append TOOL_END_TAG) TOOL_END_TAG p.unread.length [] =
      ((p.append TOOL_END_TAG).closeToolCall (p.lastProcessedPosition + p.unread.length),
        p.completedCall rj ids) := by
    simp [fire, hs, append, completedCall]
  have hunread := fire_unread rj ids types p.unread.length [] hfirst.mem
  rw [parseAll_fire rj ids types hfirst]
  rw [hfire] at hunread ⊢
  have hnil : ((p.append TOOL_END_TAG).closeToolCall
      (p.lastProcessedPosition + p.unread.length)).unread = [] := by
    rw [hunread, hread]
    refine List.drop_eq_nil_of_le ?_
    rw [if_neg (fun h => absurd h.1 (by decide)), List.length_append]
  have hq' : ((p.append TOOL_END_TAG).closeToolCall
      (p.lastProcessedPosition + p.unread.length)).Quiet := by
    intro m hm i hat
    rw [hnil] at hat
    exact fresh_quiet 0 m hm i hat
  simp [parseAll_quiet rj ids types hq']

theorem finalizeOnGenerationEnd_openIn {p : Impl} (hw : p.WellPlaced) (hq : p.Quiet)
    (hp : Spells rj types p) {call : ToolCall}
    (hcall : call ∈ (finalizeOnGenerationEnd rj ids types p).1.getD []) :
    OpenIn rj types p.streamContent call := by
  by_cases hs : p.currentState = .afterFunction
  · simp only [finalizeOnGenerationEnd, hs, ne_eq, not_true_eq_false, if_false, orNullopt_getD,
      parseAll_append_toolEnd rj ids types hw hq hs] at hcall
    unfold Spells at hp
    simp only [hs] at hp
    obtain ⟨pre, c, text, htext, hpre, hfun⟩ := hp
    refine ⟨pre, c, text, p.unread, htext, ?_, by rw [← hpre, readText_unread],
      completedCall_comesFrom rj ids types hfun hcall⟩
    have hq' := hq
    unfold Quiet at hq'
    rwa [hs] at hq'
  · simp [finalizeOnGenerationEnd, hs] at hcall

end Impl

end ModelServer.Qwen3CoderToolParser
