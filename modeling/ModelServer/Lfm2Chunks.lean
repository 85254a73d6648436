import ModelServer.Lfm2ToolParser
import ModelServer.JsonText

namespace ModelServer.Lfm2ToolParser

open OpenAIResponsesHandler

section Texts

/-- Values as Python writes them. -/
inductive PythonLiteral
  | none
  | bool (b : Bool)
  | number (negative : Bool) (integer : Str) (fraction : Option Str)
  | str (quote : Byte) (text : Str)
  | list (items : List PythonLiteral)
  | dict (members : List (PythonLiteral × PythonLiteral))

def separated : List Str → Str
  | [] => []
  | [text] => text
  | text :: texts => text ++ TOOL_SEPARATOR_STR ++ separated texts

mutual

def PythonLiteral.text : PythonLiteral → Str
  | .none => bytes "None"
  | .bool b => if b then bytes "True" else bytes "False"
  | .number negative integer fraction =>
    (if negative then bytes "-" else []) ++ integer ++ (fraction.elim [] fun digits => bytes "." ++ digits)
  | .str quote text => quote :: (text ++ [quote])
  | .list items => bytes "[" ++ separated (itemTexts items) ++ bytes "]"
  | .dict members => bytes "\x7b" ++ separated (memberTexts members) ++ bytes "\x7d"

def itemTexts : List PythonLiteral → List Str
  | [] => []
  | item :: items => item.text :: itemTexts items

def memberTexts : List (PythonLiteral × PythonLiteral) → List Str
  | [] => []
  | (key, value) :: members => (key.text ++ bytes ": " ++ value.text) :: memberTexts members

end

/-- A call as the model writes it. -/
structure WrittenCall where
  name : Str
  arguments : List (Str × PythonLiteral)

def WrittenCall.text (call : WrittenCall) : Str :=
  call.name ++ TOOL_ARGS_START_INDICATOR ++ separated (call.arguments.map fun (key, value) => key ++ bytes "=" ++ value.text) ++
    TOOL_ARGS_END_INDICATOR

def callsText (calls : List WrittenCall) : Str :=
  startTag ++ TOOL_LIST_START_INDICATOR ++ separated (calls.map WrittenCall.text) ++ TOOL_LIST_END_INDICATOR ++ endTag

end Texts

section Characters

variable (rj : RapidJson) (ids : RandomIds)

/-- The text, fed by characters. -/
def characters (text : Str) : List Str := text.map ([·])

/-- All that has been received is published as content. -/
structure Passed (p : Lfm2ToolParser) : Prop where
  state : p.currentState = .content
  position : p.streamingPosition = p.streamingContent.length

theorem find_none_of_short {text tag : Str} {pos : Nat} (h : text.length < pos + tag.length) (htag : tag ≠ []) :
    find text tag pos = none := by
  refine (find_eq_none_iff htag).mpr fun j hj hat => ?_
  have hlength := hat.length_le htag
  omega

theorem toolCallDeltas_content (d : Option Delta) (h : ∀ call, d ≠ some (.toolCall call)) : toolCallDeltas d.toList = [] := by
  cases d with
  | none => rfl
  | some d =>
    cases d with
    | toolCall call => exact absurd rfl (h call)
    | _ => rfl

/-- One character is no tag: it is content. -/
theorem Passed.parseChunk {p : Lfm2ToolParser} (hp : p.Passed) (c : Byte) :
    toolCallDeltas (parseChunk rj ids p [c] .none).1.toList = [] ∧ (parseChunk rj ids p [c] .none).2.Passed := by
  obtain ⟨hstate, hposition⟩ := hp
  let received : Lfm2ToolParser := { p with streamingContent := p.streamingContent ++ [c] }
  have hshort : (p.streamingContent ++ [c]).length = p.streamingPosition + 1 := by rw [List.length_append, hposition]; rfl
  have hstart : find received.streamingContent startTag received.streamingPosition = none :=
    find_none_of_short (by rw [hshort]; exact Nat.add_lt_add_left (by decide) _) (by decide)
  have hend : find received.streamingContent endTag received.streamingPosition = none :=
    find_none_of_short (by rw [hshort]; exact Nat.add_lt_add_left (by decide) _) (by decide)
  have hmoved : parseNewContent rj ids received = (true, received) := by
    have hcontent : received.currentState = .content := hstate
    rw [parseNewContent, hcontent]
    show received.parseInContentState = _
    rw [parseInContentState, hstart, hend]
  have hpending : received.pendingContent = [c] := by
    rw [pendingContent, hstart]
    show (p.streamingContent ++ [c]).drop p.streamingPosition = [c]
    rw [hposition, List.drop_left]
  have hpublished : (received.published ids).2 = { received with streamingPosition := received.streamingPosition + 1 } ∧
      ∀ call, (received.published ids).1 ≠ some (.toolCall call) := by
    have hcontent : received.currentState = .content := hstate
    rw [published, hcontent]
    dsimp only
    rw [hpending]
    split
    · exact ⟨rfl, fun call h => by cases h⟩
    · exact ⟨rfl, fun call h => by cases h⟩
  have hchunk : Lfm2ToolParser.parseChunk rj ids p [c] .none = received.published ids := by
    have hstep : step rj ids received = received.published ids := by
      rw [step, hmoved]
      rfl
    rw [Lfm2ToolParser.parseChunk, if_neg (by simp), hstep]
    generalize received.published ids = r
    obtain ⟨delta, q⟩ := r
    cases delta with
    | none => rfl
    | some delta => rfl
  rw [hchunk]
  refine ⟨toolCallDeltas_content _ hpublished.2, ?_⟩
  rw [hpublished.1]
  exact ⟨hstate, hshort.symm⟩

theorem Passed.parseChunks {p : Lfm2ToolParser} (hp : p.Passed) (text : Str) :
    toolCallDeltas (parseChunks rj ids p (characters text)).1 = [] ∧ (parseChunks rj ids p (characters text)).2.Passed := by
  induction text generalizing p with
  | nil => exact ⟨rfl, hp⟩
  | cons c text ih =>
    obtain ⟨hdelta, hnext⟩ := hp.parseChunk rj ids c
    obtain ⟨hdeltas, hlast⟩ := ih hnext
    rw [characters, List.map_cons, ← characters, Lfm2ToolParser.parseChunks]
    dsimp only
    rw [toolCallDeltas_append, hdelta, hdeltas]
    exact ⟨rfl, hlast⟩

/-- Whatever the text, fed by characters it has no calls. -/
theorem generation_characters (text : Str) : toolCallDeltas (generation rj ids (characters text)) = [] := by
  have hreset : Passed ({} : Lfm2ToolParser) := ⟨rfl, rfl⟩
  obtain ⟨hdeltas, hstate, hposition⟩ := hreset.parseChunks rj ids text
  show toolCallDeltas ((Lfm2ToolParser.parseChunks rj ids {} _).1 ++ _) = []
  rw [toolCallDeltas_append, hdeltas, Lfm2ToolParser.parseChunk, if_pos (by simp [hstate])]
  rfl

end Characters

section Reassembly

variable (rj : RapidJson) (ids : RandomIds)

/-- The names and the arguments of the calls that a generation leaves. -/
def reassembled (chunks : List Str) : List (Str × Str) :=
  (parsedOutputFromDeltas (generation rj ids chunks)).toolCalls.map ToolCall.invocation

/-- The calls that were written come back under their names, with the arguments that they have when fed by characters. -/
structure SameAsCharacters (calls : List WrittenCall) (chunks : List Str) : Prop where
  names : (reassembled rj ids chunks).map Prod.fst = calls.map WrittenCall.name
  same : reassembled rj ids chunks = reassembled rj ids (characters (callsText calls))

variable {rj ids}

theorem toolCalls_of_content {deltas : List Delta} (h : toolCallDeltas deltas = []) (parsedOutput : ParsedOutput) :
    (deltas.foldl ParsedOutput.add parsedOutput).toolCalls = parsedOutput.toolCalls := by
  induction deltas generalizing parsedOutput with
  | nil => rfl
  | cons d deltas ih =>
    cases d with
    | toolCall call => cases h
    | _ => exact ih h _

theorem reassembled_characters (text : Str) : reassembled rj ids (characters text) = [] := by
  rw [reassembled, parsedOutputFromDeltas, toolCalls_of_content (generation_characters rj ids text)]
  rfl

/-- No division gives the calls as the characters do, because by characters no call is found. -/
theorem never_same_as_characters {calls : List WrittenCall} (hcalls : calls ≠ []) (chunks : List Str) :
    ¬ SameAsCharacters rj ids calls chunks := by
  intro h
  have hnone : reassembled rj ids chunks = [] := h.same.trans (reassembled_characters _)
  have hnames := h.names
  rw [hnone, List.map_nil] at hnames
  exact hcalls (List.map_eq_nil_iff.mp hnames.symm)

def oneCall : List WrittenCall := [⟨bytes "f", []⟩]

/-- A tag, a bracket, a name and a parenthesis at a time, as they come from a tokenizer. -/
def byTokens : List Str := [startTag, bytes "[", bytes "f(", bytes ")", bytes "]", endTag]

theorem never_same_as_characters_one : ¬ SameAsCharacters RapidJson.textual .growing oneCall byTokens :=
  never_same_as_characters (by simp [oneCall]) byTokens

theorem byTokens_names : (reassembled RapidJson.textual .growing byTokens).map Prod.fst = [bytes "f"] := by
  decide

/-- By tokens the call is found, by characters it is not. -/
theorem tokens_unlike_characters : ¬ ∀ (rj : RapidJson) (ids : RandomIds) (calls : List WrittenCall) (chunks : List Str),
    calls ≠ [] → chunks.flatten = callsText calls → (∀ chunk ∈ chunks, chunk ≠ []) →
      reassembled rj ids chunks = reassembled rj ids (characters (callsText calls)) := by
  intro h
  have hsame := h RapidJson.textual .growing oneCall byTokens (by simp [oneCall]) (by decide) (by decide)
  have hnames := byTokens_names
  rw [hsame, reassembled_characters] at hnames
  cases hnames

end Reassembly

end ModelServer.Lfm2ToolParser
