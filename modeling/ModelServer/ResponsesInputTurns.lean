import Mathlib.Data.List.TakeWhile
import ModelServer.CheckedSteps
import ModelServer.PendingTurns
import ModelServer.ResponsesInput
import ModelServer.Separators

namespace ModelServer.ResponsesInput

open CheckedSteps PendingTurns

section Conversion

/-- What an item of the input says. -/
inductive InputItem
  | reasoning (text : Str)
  | functionCall (fields : FunctionCallFields)
  | functionCallOutput (callId output : Str)
  | roleItem (role : Str) (content : Content)
deriving DecidableEq

def inputItem (read : Str → Str) (item : Json) : Except Str InputItem := do
  match ← classifyInputItem item with
  | .REASONING => return .reasoning (extractReasoningText read item)
  | .FUNCTION_CALL =>
    validateFunctionCallItem read item
    return .functionCall (readFunctionCallFields read item)
  | .FUNCTION_CALL_OUTPUT =>
    return .functionCallOutput ((stringMember read "call_id" item).getD []) ((stringMember read "output" item).getD [])
  | .ROLE_ITEM => return .roleItem ((stringMember read "role" item).getD []) (← contentOf read item)
  | .MISSING_ROLE => throw (bytes "input item role is missing or invalid")

/-- What is put into a message of the assistant. -/
inductive Carried
  | reasoning (text : Str)
  | functionCall (fields : FunctionCallFields)

/-- What has a message of its own. -/
inductive Own
  | functionCallOutput (callId output : Str)
  | roleItem (role : Str) (content : Content)

def Own.isAssistant : Own → Bool
  | .functionCallOutput .. => false
  | .roleItem role _ => role = bytes "assistant"

/-- What becomes of an item; nothing of an empty reasoning. -/
def InputItem.entry : InputItem → Option (Carried ⊕ Own)
  | .reasoning text => if text = [] then none else some (.inl (.reasoning text))
  | .functionCall fields => some (.inl (.functionCall fields))
  | .functionCallOutput callId output => some (.inr (.functionCallOutput callId output))
  | .roleItem role content => some (.inr (.roleItem role content))

def InputItem.fields? : InputItem → Option FunctionCallFields
  | .functionCall fields => some fields
  | _ => none

/-- The entries with the positions of their items, from a first position on. -/
def entries (first : Nat) (items : List InputItem) : List (Nat × (Carried ⊕ Own)) :=
  (items.zipIdx first).filterMap fun item => item.1.entry.map (item.2, ·)

def Carried.text? : Carried → Option Str
  | .reasoning text => some text
  | .functionCall _ => none

def Carried.fields? : Carried → Option FunctionCallFields
  | .reasoning _ => none
  | .functionCall fields => some fields

def reasonings (things : List (Nat × Carried)) : List Str := things.filterMap fun thing => thing.2.text?

def calls (things : List (Nat × Carried)) : List FunctionCallFields := things.filterMap fun thing => thing.2.fields?

/-- Texts, each on lines of its own. -/
def lines : List Str → Str
  | [] => []
  | text :: texts => Separators.joined (char '\n') text texts

/-- The message of a turn. -/
def message (turn : Turn Carried Own) : Message where
  role :=
    match turn.own with
    | some (_, .functionCallOutput ..) => bytes "tool"
    | some (_, .roleItem role _) => role
    | none => bytes "assistant"
  content :=
    match turn.own with
    | some (_, .functionCallOutput _ output) => .string output
    | some (_, .roleItem _ content) => content
    | none => .string []
  tool_call_id :=
    match turn.own with
    | some (_, .functionCallOutput callId _) => if callId = [] then none else some callId
    | _ => none
  reasoning_content := if reasonings turn.carried = [] then none else some (lines (reasonings turn.carried))
  tool_calls := if calls turn.carried = [] then none else some (calls turn.carried)

/-- The messages convey the items: each function call and each reasoning that is not empty is in one message of the assistant,
in the order of the items and before what comes of a later item that is not the assistant's; each output of a function and
each item with a role has a message of its own, in order. -/
def Converted (items : List InputItem) (messages : List Message) : Prop :=
  ∃ turns, Conveyed Own.isAssistant (entries 0 items) turns ∧ messages = turns.map message

/-- Only messages of the assistant have tool calls or a reasoning. -/
theorem Converted.not_assistant {items : List InputItem} {messages : List Message} (h : Converted items messages) {m : Message}
    (hm : m ∈ messages) (hrole : m.role ≠ bytes "assistant") : m.tool_calls = none ∧ m.reasoning_content = none := by
  obtain ⟨turns, hconveyed, rfl⟩ := h
  obtain ⟨turn, hturn, rfl⟩ := List.mem_map.mp hm
  have hcarried : turn.carried = [] := by
    by_contra hne
    have habsorbs := hconveyed.absorbing turn hturn hne
    simp only [message] at hrole
    split at hrole
    next number callId output hown => cases habsorbs _ hown
    next number role content hown => exact hrole (of_decide_eq_true (habsorbs _ hown))
    next => exact hrole rfl
  simp only [message, hcarried]
  exact ⟨if_pos rfl, if_pos rfl⟩

theorem entries_cons (first : Nat) (item : InputItem) (items : List InputItem) :
    entries first (item :: items) = (item.entry.map (first, ·)).toList ++ entries (first + 1) items := by
  rw [entries, List.zipIdx_cons, List.filterMap_cons]
  cases item.entry <;> rfl

theorem calls_entries (first : Nat) (items : List InputItem) :
    calls ((entries first items).filterMap held) = items.filterMap InputItem.fields? := by
  induction items generalizing first with
  | nil => rfl
  | cons item items ih =>
    rw [entries_cons, List.filterMap_append, calls, List.filterMap_append, List.filterMap_cons, ← ih (first + 1)]
    cases item with
    | reasoning text =>
      rw [InputItem.entry]
      split <;> rfl
    | _ => rfl

/-- All the function calls are called, each once and in order. -/
theorem Converted.tool_calls {items : List InputItem} {messages : List Message} (h : Converted items messages) :
    messages.flatMap (fun m => m.tool_calls.getD []) = items.filterMap InputItem.fields? := by
  obtain ⟨turns, hconveyed, rfl⟩ := h
  rw [← calls_entries 0 items, ← hconveyed.carried, List.flatMap_map, calls, List.filterMap_flatMap]
  congr 1
  funext turn
  show (if calls turn.carried = [] then none else some (calls turn.carried)).getD [] = calls turn.carried
  by_cases hnone : calls turn.carried = []
  · rw [if_pos hnone, hnone]
    rfl
  · rw [if_neg hnone]
    rfl

theorem le_of_mem_entries {first : Nat} {items : List InputItem} {entry : Nat × (Carried ⊕ Own)} (h : entry ∈ entries first items) :
    first ≤ entry.1 := by
  induction items generalizing first with
  | nil => cases h
  | cons item items ih =>
    rw [entries_cons] at h
    rcases List.mem_append.mp h with h | h
    · obtain ⟨_, -, rfl⟩ := Option.map_eq_some_iff.mp (Option.mem_toList.mp h)
      exact Nat.le_refl _
    · have hle := ih h
      omega

theorem entries_ordered (first : Nat) (items : List InputItem) :
    (entries first items).Pairwise fun entry later => entry.1 < later.1 := by
  induction items generalizing first with
  | nil => exact .nil
  | cons item items ih =>
    rw [entries_cons]
    apply List.pairwise_append.mpr
    refine ⟨?_, ih (first + 1), ?_⟩
    · cases item.entry
      · exact .nil
      · exact List.pairwise_singleton _ _
    · intro entry hm later hlater
      obtain ⟨_, -, rfl⟩ := Option.map_eq_some_iff.mp (Option.mem_toList.mp hm)
      exact le_of_mem_entries hlater

end Conversion

section Simulation

variable {read : Str → Str} {history : List Message} {pt : PendingTurns.State Carried Own} {s : State}

theorem lines_eq_nil {texts : List Str} (h : ∀ text ∈ texts, text ≠ []) : lines texts = [] ↔ texts = [] := by
  cases texts with
  | nil => exact iff_of_true rfl rfl
  | cons text texts =>
    refine iff_of_false ?_ nofun
    intro hnil
    exact h text List.mem_cons_self (List.append_eq_nil_iff.mp hnil).1

theorem lines_snoc (texts : List Str) (text : Str) :
    lines (texts ++ [text]) = (if texts = [] then [] else lines texts ++ [char '\n']) ++ text := by
  cases texts with
  | nil => exact List.append_nil text
  | cons first rest =>
    rw [if_neg (List.cons_ne_nil _ _), List.cons_append, lines, lines, Separators.joined_snoc, List.append_assoc]
    rfl

/-- The buffers hold what is pending, and the history the turns so far. -/
structure Holds (read : Str → Str) (history : List Message) (pt : PendingTurns.State Carried Own) (s : State) : Prop where
  chatHistory : s.chatHistory = history ++ pt.turns.map message
  functionCalls : s.pendingFunctionCalls.map (readFunctionCallFields read) = calls pt.pending
  reasoningContent : s.pendingReasoningContent = lines (reasonings pt.pending)
  texts : ∀ text ∈ reasonings pt.pending, text ≠ []
  noContent : s.hasPendingContent = false

theorem reasonings_append (things others : List (Nat × Carried)) : reasonings (things ++ others) = reasonings things ++ reasonings others :=
  List.filterMap_append

theorem calls_append (things others : List (Nat × Carried)) : calls (things ++ others) = calls things ++ calls others :=
  List.filterMap_append

theorem pending_eq_nil {things : List (Nat × Carried)} : things = [] ↔ calls things = [] ∧ reasonings things = [] := by
  cases things with
  | nil => exact iff_of_true rfl ⟨rfl, rfl⟩
  | cons thing things =>
    refine iff_of_false nofun ?_
    intro ⟨hcalls, hreasonings⟩
    obtain ⟨number, text | fields⟩ := thing
    · cases hreasonings
    · cases hcalls

theorem Holds.functionCalls_isEmpty (h : Holds read history pt s) :
    s.pendingFunctionCalls.isEmpty = true ↔ calls pt.pending = [] := by
  rw [← h.functionCalls, List.map_eq_nil_iff, List.isEmpty_iff]

theorem Holds.reasoningContent_eq_nil (h : Holds read history pt s) :
    s.pendingReasoningContent = [] ↔ reasonings pt.pending = [] := by
  rw [h.reasoningContent, lines_eq_nil h.texts]

/-- Nothing is held back in this state. -/
structure Clear (s : State) : Prop where
  functionCalls : s.pendingFunctionCalls = []
  reasoningContent : s.pendingReasoningContent = []
  noContent : s.hasPendingContent = false

/-- A message with all that is pending leaves nothing held back. -/
theorem Holds.out {own : Option (Nat × Own)} {s' : State} (h : Holds read history pt s) (hclear : Clear s')
    (hhistory : s'.chatHistory = s.chatHistory ++ [message ⟨pt.pending, own⟩]) :
    Holds read history ⟨pt.turns ++ [⟨pt.pending, own⟩], []⟩ s' where
  chatHistory := by rw [hhistory, h.chatHistory, List.append_assoc, List.map_append, List.map_singleton]
  functionCalls := by rw [hclear.functionCalls]; rfl
  reasoningContent := hclear.reasoningContent
  texts := nofun
  noContent := hclear.noContent

theorem Holds.flush (h : Holds read history pt s) :
    Holds read history (PendingTurns.flush pt) (flushPendingFunctionCalls read [] s) ∧ Clear (flushPendingFunctionCalls read [] s) := by
  have hcontent : pendingContent [] s = .string [] := by rw [pendingContent, h.noContent]; rfl
  rw [flushPendingFunctionCalls, PendingTurns.flush]
  by_cases hcalls : calls pt.pending = []
  · rw [if_pos (h.functionCalls_isEmpty.mpr hcalls)]
    have hnone : s.pendingFunctionCalls = [] := List.isEmpty_iff.mp (h.functionCalls_isEmpty.mpr hcalls)
    by_cases hreasonings : reasonings pt.pending = []
    · have hpending : pt.pending = [] := pending_eq_nil.mpr ⟨hcalls, hreasonings⟩
      have htext := h.reasoningContent_eq_nil.mpr hreasonings
      rw [if_pos htext, if_pos (List.isEmpty_iff.mpr hpending)]
      exact ⟨h, hnone, htext, h.noContent⟩
    · have hpending : ¬pt.pending.isEmpty = true := fun hempty =>
        hreasonings (pending_eq_nil.mp (List.isEmpty_iff.mp hempty)).2
      rw [if_neg (mt h.reasoningContent_eq_nil.mp hreasonings), if_neg hpending]
      have hclear : Clear (emitStandaloneReasoning s.pendingReasoningContent { s with pendingReasoningContent := [] }) :=
        ⟨hnone, rfl, h.noContent⟩
      refine ⟨h.out hclear ?_, hclear⟩
      simp only [emitStandaloneReasoning, message, hcalls, hreasonings, if_true, if_false, h.reasoningContent]
  · have hpending : ¬pt.pending.isEmpty = true := fun hempty => hcalls (pending_eq_nil.mp (List.isEmpty_iff.mp hempty)).1
    rw [if_neg (mt h.functionCalls_isEmpty.mp hcalls), if_neg hpending]
    refine ⟨h.out ⟨rfl, rfl, rfl⟩ ?_, rfl, rfl, rfl⟩
    simp only [emitAssistantWithToolCalls, message, hcontent, hcalls, if_false, h.functionCalls, h.reasoningContent,
      lines_eq_nil h.texts]

/-- The entry of an item, if it has one, is the next one. -/
def advance (pt : PendingTurns.State Carried Own) (number : Nat) (item : InputItem) : PendingTurns.State Carried Own :=
  (item.entry.map (number, ·)).toList.foldl (step Own.isAssistant) pt

theorem extractContent_ok {itemObj : Json} {outText : Str} {s' : State} (h : extractContent read itemObj s = .ok (outText, s')) :
    ∃ content, contentOf read itemObj = .ok content ∧ pendingContent outText s' = content ∧ s'.chatHistory = s.chatHistory ∧
      s'.pendingFunctionCalls = s.pendingFunctionCalls ∧ s'.pendingReasoningContent = s.pendingReasoningContent := by
  obtain ⟨content, hcontent, h⟩ := bind_eq_ok.mp h
  refine ⟨content, hcontent, ?_⟩
  cases content with
  | string contentText =>
    obtain ⟨rfl, rfl⟩ := Prod.mk.inj (Except.ok.inj h)
    exact ⟨rfl, rfl, rfl, rfl⟩
  | array entries =>
    obtain ⟨rfl, rfl⟩ := Prod.mk.inj (Except.ok.inj h)
    exact ⟨rfl, rfl, rfl, rfl⟩

variable (number : Nat) {item : Json}

theorem Holds.onReasoningItem (h : Holds read history pt s) :
    Holds read history (advance pt number (.reasoning (extractReasoningText read item))) (onReasoningItem read item s) := by
  rw [ResponsesInput.onReasoningItem, advance, InputItem.entry]
  by_cases htext : extractReasoningText read item = []
  · rw [if_pos htext, if_pos htext]
    exact h
  · rw [if_neg htext, if_neg htext]
    have hsnoc : reasonings (pt.pending ++ [(number, Carried.reasoning (extractReasoningText read item))]) =
        reasonings pt.pending ++ [extractReasoningText read item] := reasonings_append _ _
    refine ⟨h.chatHistory, ?_, ?_, ?_, h.noContent⟩
    · refine h.functionCalls.trans ?_
      show _ = calls (pt.pending ++ [(number, Carried.reasoning _)])
      rw [calls_append]
      exact (List.append_nil _).symm
    · show _ = lines (reasonings (pt.pending ++ [(number, Carried.reasoning _)]))
      rw [hsnoc, lines_snoc, ← h.reasoningContent]
      simp only [h.reasoningContent_eq_nil]
    · intro text hm
      change text ∈ reasonings (pt.pending ++ [(number, Carried.reasoning _)]) at hm
      rw [hsnoc] at hm
      rcases List.mem_append.mp hm with hm | hm
      · exact h.texts text hm
      · rw [List.mem_singleton.mp hm]
        exact htext

theorem Holds.functionCallItem (h : Holds read history pt s) :
    Holds read history (advance pt number (.functionCall (readFunctionCallFields read item)))
      { s with pendingFunctionCalls := s.pendingFunctionCalls ++ [item] } := by
  have hsame : reasonings (pt.pending ++ [(number, Carried.functionCall (readFunctionCallFields read item))]) =
      reasonings pt.pending := (reasonings_append _ _).trans (List.append_nil _)
  refine ⟨h.chatHistory, ?_, h.reasoningContent.trans (congrArg lines hsame.symm), ?_, h.noContent⟩
  · show List.map _ (s.pendingFunctionCalls ++ [item]) = calls (pt.pending ++ [(number, Carried.functionCall _)])
    rw [List.map_append, h.functionCalls, calls_append]
    rfl
  · intro text hm
    exact h.texts text (hsame ▸ hm)

theorem Holds.onFunctionCallOutputItem (h : Holds read history pt s) :
    Holds read history (advance pt number (.functionCallOutput ((stringMember read "call_id" item).getD [])
      ((stringMember read "output" item).getD []))) (onFunctionCallOutputItem read item s) := by
  obtain ⟨hflush, hclear⟩ := h.flush
  refine ⟨?_, ?_, hclear.reasoningContent, nofun, hclear.noContent⟩
  · rw [ResponsesInput.onFunctionCallOutputItem, emitToolMessage, hflush.chatHistory, List.append_assoc]
    show _ = history ++ List.map message ((PendingTurns.flush pt).turns ++ _)
    rw [List.map_append]
    rfl
  · rw [ResponsesInput.onFunctionCallOutputItem, emitToolMessage, hclear.functionCalls]
    rfl

/-- A message that may not carry anything. -/
theorem Holds.otherRole {role : Str} {content : Content} {s' : State} (h : Holds read history pt s) (hrole : role ≠ bytes "assistant")
    (hhistory : s'.chatHistory = (flushPendingFunctionCalls read [] s).chatHistory ++ [{ role := role, content := content }])
    (hclear : Clear s') : Holds read history (advance pt number (.roleItem role content)) s' := by
  obtain ⟨hflush, -⟩ := h.flush
  have hstep : advance pt number (.roleItem role content) =
      ⟨(PendingTurns.flush pt).turns ++ [⟨[], some (number, .roleItem role content)⟩], []⟩ := if_neg (mt of_decide_eq_true hrole)
  rw [hstep]
  refine ⟨?_, ?_, hclear.reasoningContent, nofun, hclear.noContent⟩
  · rw [hhistory, hflush.chatHistory, List.append_assoc, List.map_append]
    rfl
  · rw [hclear.functionCalls]
    rfl

theorem Holds.onRoleItem {s' : State} (h : Holds read history pt s) (hs' : onRoleItem read item s = .ok s') :
    ∃ content, contentOf read item = .ok content ∧
      Holds read history (advance pt number (.roleItem ((stringMember read "role" item).getD []) content)) s' := by
  rw [ResponsesInput.onRoleItem] at hs'
  generalize (stringMember read "role" item).getD [] = role at hs' ⊢
  obtain ⟨⟨contentText, extracted⟩, hextracted, hs'⟩ := bind_eq_ok.mp hs'
  obtain ⟨content, hcontent, hpending, hhistory, hcalls, hreasoning⟩ := extractContent_ok hextracted
  dsimp only at hs'
  refine ⟨content, hcontent, ?_⟩
  by_cases hrole : role = bytes "assistant"
  · have hstep : advance pt number (.roleItem role content) =
        ⟨pt.turns ++ [⟨pt.pending, some (number, .roleItem role content)⟩], []⟩ := if_pos (decide_eq_true hrole)
    rw [if_neg (not_not.mpr hrole)] at hhistory hcalls hreasoning
    rw [hstep]
    by_cases hempty : extracted.pendingFunctionCalls.isEmpty = false
    · rw [if_pos ⟨hrole, hempty⟩] at hs'
      obtain rfl := Except.ok.inj hs'
      have hsome : calls pt.pending ≠ [] := by
        rw [hcalls] at hempty
        exact mt h.functionCalls_isEmpty.mpr (ne_true_of_eq_false hempty)
      rw [flushPendingFunctionCalls, if_neg (ne_true_of_eq_false hempty)]
      refine h.out ⟨rfl, rfl, rfl⟩ ?_
      simp only [emitAssistantWithToolCalls, message, hpending, hhistory, hcalls, hreasoning, h.functionCalls, h.reasoningContent,
        lines_eq_nil h.texts, hsome, if_false, hrole]
    · have hnone : calls pt.pending = [] := by
        rw [hcalls] at hempty
        exact h.functionCalls_isEmpty.mp (Bool.not_eq_false _ ▸ hempty)
      have hclear : extracted.pendingFunctionCalls = [] := List.isEmpty_iff.mp (Bool.not_eq_false _ ▸ hempty)
      rw [if_neg fun hboth => hempty hboth.2] at hs'
      by_cases htext : extracted.pendingReasoningContent = []
      · rw [if_neg fun hboth => hboth.2 htext] at hs'
        obtain rfl := Except.ok.inj hs'
        have hreasonings : reasonings pt.pending = [] := h.reasoningContent_eq_nil.mp (hreasoning ▸ htext)
        refine h.out ⟨hclear, htext, rfl⟩ ?_
        simp only [emitMessage, message, hpending, hhistory, hnone, hreasonings, if_true]
      · rw [if_pos ⟨hrole, htext⟩] at hs'
        obtain rfl := Except.ok.inj hs'
        refine h.out ⟨hclear, rfl, rfl⟩ ?_
        have hsame : pendingContent contentText { extracted with pendingReasoningContent := [] } = content := hpending
        simp only [emitMessage, hsame]
        simp only [message, hhistory, hreasoning, hnone, if_true, h.reasoningContent, lines_eq_nil h.texts]
  · rw [if_pos hrole] at hhistory hcalls hreasoning
    obtain ⟨-, hclear⟩ := h.flush
    rw [if_neg fun hboth => hrole hboth.1, if_neg fun hboth => hrole hboth.1] at hs'
    obtain rfl := Except.ok.inj hs'
    refine h.otherRole number hrole ?_ ⟨hcalls.trans hclear.functionCalls, hreasoning.trans hclear.reasoningContent, rfl⟩
    rw [emitMessage, hpending, hhistory]
    rfl

/-- A turn of the loop. -/
theorem Holds.onItem {s' : State} (h : Holds read history pt s) (hs' : onItem read s item = .ok s') :
    ∃ read_item, inputItem read item = .ok read_item ∧ Holds read history (advance pt number read_item) s' := by
  obtain ⟨kind, hkind, hs'⟩ := bind_eq_ok.mp hs'
  simp only [inputItem, hkind]
  cases kind with
  | REASONING =>
    obtain rfl := Except.ok.inj hs'
    exact ⟨_, rfl, h.onReasoningItem number⟩
  | FUNCTION_CALL =>
    obtain ⟨_, hvalid, hs'⟩ := bind_eq_ok.mp hs'
    obtain rfl := Except.ok.inj hs'
    refine ⟨.functionCall (readFunctionCallFields read item), ?_, h.functionCallItem number⟩
    show (validateFunctionCallItem read item >>= _) = _
    rw [hvalid]
    rfl
  | FUNCTION_CALL_OUTPUT =>
    obtain rfl := Except.ok.inj hs'
    exact ⟨_, rfl, h.onFunctionCallOutputItem number⟩
  | ROLE_ITEM =>
    obtain ⟨content, hcontent, hholds⟩ := h.onRoleItem number hs'
    refine ⟨.roleItem ((stringMember read "role" item).getD []) content, ?_, hholds⟩
    show (contentOf read item >>= _) = _
    rw [hcontent]
    rfl
  | MISSING_ROLE => cases hs'

theorem Holds.run {nodes : List Json} {s' : State} (h : Holds read history pt s) (hs' : nodes.foldlM (ResponsesInput.onItem read) s = .ok s') :
    ∃ items, nodes.mapM (inputItem read) = .ok items ∧
      Holds read history ((entries number items).foldl (step Own.isAssistant) pt) s' := by
  induction nodes generalizing pt s number with
  | nil =>
    obtain rfl := Except.ok.inj hs'
    exact ⟨[], rfl, h⟩
  | cons node nodes ih =>
    rw [List.foldlM_cons] at hs'
    obtain ⟨next, hnext, hs'⟩ := bind_eq_ok.mp hs'
    obtain ⟨item, hitem, hholds⟩ := h.onItem number hnext
    obtain ⟨items, hitems, hholds⟩ := ih (number + 1) hholds hs'
    refine ⟨item :: items, ?_, ?_⟩
    · rw [List.mapM_cons, hitem, hitems]
      rfl
    · rw [entries_cons, List.foldl_append]
      exact hholds

/-- An input array that is accepted is converted, as far as its strings are read. -/
theorem build_converted {nodes : List Json} {final : List Message} (h : build read (.arr nodes) history = .ok final) :
    ∃ items appended, nodes.mapM (inputItem read) = .ok items ∧ final = history ++ appended ∧ Converted items appended := by
  obtain ⟨s, hs, h⟩ := bind_eq_ok.mp h
  have hstart : Holds read history start { chatHistory := history } := ⟨(List.append_nil _).symm, rfl, rfl, nofun, rfl⟩
  obtain ⟨items, hitems, hholds⟩ := hstart.run 0 hs
  refine ⟨items, _, hitems, ?_, _, run_conveyed (entries_ordered 0 items), rfl⟩
  exact (Except.ok.inj h).symm.trans hholds.flush.1.chatHistory

end Simulation

section Reading

def FunctionCallFields.cut (fields : FunctionCallFields) : FunctionCallFields :=
  ⟨cStr fields.id, cStr fields.name, cStr fields.arguments⟩

def ContentEntry.cut : ContentEntry → ContentEntry
  | .text s => .text (cStr s)
  | .image_url url => .image_url (cStr url)
  | .input_audio data format => .input_audio (cStr data) (cStr format)

def Content.cut : Content → Content
  | .string contentText => .string (cStr contentText)
  | .array entries => .array (entries.map ContentEntry.cut)

/-- The item as `GetString` reads it. -/
def InputItem.cut : InputItem → InputItem
  | .reasoning text => .reasoning (cStr text)
  | .functionCall fields => .functionCall fields.cut
  | .functionCallOutput callId output => .functionCallOutput (cStr callId) (cStr output)
  | .roleItem role content => .roleItem (cStr role) content.cut

theorem stringMember_cStr (name : String) (object : Json) : stringMember cStr name object = (stringMember id name object).map cStr := by
  rw [stringMember, stringMember]
  split <;> rfl

theorem getD_cStr (text : Option Str) : (text.map cStr).getD [] = cStr (text.getD []) := by
  cases text <;> rfl

theorem or_cStr (text other : Option Str) : (text.map cStr).or (other.map cStr) = (text.or other).map cStr := by
  cases text <;> rfl

theorem findSome?_cStr (name : String) (items : List Json) :
    items.findSome? (stringMember cStr name) = (items.findSome? (stringMember id name)).map cStr := by
  induction items with
  | nil => rfl
  | cons item items ih =>
    rw [List.findSome?_cons, List.findSome?_cons, stringMember_cStr, ih]
    cases stringMember id name item <;> rfl

theorem firstText_cStr (name : String) (itemObj : Json) : firstText cStr name itemObj = (firstText id name itemObj).map cStr := by
  rw [firstText, firstText]
  split
  next items _ => exact findSome?_cStr "text" items
  next => rfl

theorem extractReasoningText_cStr (itemObj : Json) : extractReasoningText cStr itemObj = cStr (extractReasoningText id itemObj) := by
  rw [extractReasoningText, firstText_cStr, firstText_cStr, or_cStr, getD_cStr]
  rfl

theorem readFunctionCallFields_cStr (item : Json) : readFunctionCallFields cStr item = (readFunctionCallFields id item).cut := by
  simp only [readFunctionCallFields, stringMember_cStr, or_cStr, getD_cStr, FunctionCallFields.cut]

theorem contentEntry_cStr (contentItem : Json) : contentEntry cStr contentItem = (contentEntry id contentItem).map ContentEntry.cut := by
  rw [contentEntry, contentEntry]
  split
  next => rfl
  next =>
    split
    next => rfl
    next type _ =>
      split
      next =>
        rw [stringMember_cStr]
        cases stringMember id "text" contentItem <;> rfl
      next =>
        split
        next =>
          rw [buildImageEntry, buildImageEntry]
          split
          next => rfl
          next => rfl
          next members _ =>
            rw [stringMember_cStr]
            cases stringMember id "url" (.obj members) <;> rfl
          next => rfl
        next =>
          split
          next =>
            rw [buildAudioEntry, buildAudioEntry]
            split
            next members _ =>
              rw [stringMember_cStr, stringMember_cStr]
              cases stringMember id "data" (.obj members)
              · rfl
              · cases stringMember id "format" (.obj members) <;> rfl
            next => rfl
          next => rfl

theorem contentOf_cStr (itemObj : Json) : contentOf cStr itemObj = (contentOf id itemObj).map Content.cut := by
  rw [contentOf, contentOf]
  split
  next => rfl
  next => rfl
  next contentItems _ =>
    split
    next => rfl
    next =>
      have hmap : contentItems.mapM (contentEntry cStr) = (contentItems.mapM (contentEntry id)).map (List.map ContentEntry.cut) := by
        rw [← mapM_map_result]
        exact congrArg (List.mapM · contentItems) (funext contentEntry_cStr)
      rw [hmap]
      cases contentItems.mapM (contentEntry id) <;> rfl
  next => rfl

/-- What is valid when it is cut is valid. -/
theorem validateFunctionCallItem_cStr {item : Json} (h : validateFunctionCallItem cStr item = .ok ()) :
    validateFunctionCallItem id item = .ok () := by
  simp only [validateFunctionCallItem, readFunctionCallFields_cStr, stringMember_cStr] at h ⊢
  obtain ⟨hid, h⟩ := not_of_ite_error h
  obtain ⟨hname, h⟩ := not_of_ite_error h
  obtain ⟨harguments, -⟩ := not_of_ite_error h
  have hid' : (readFunctionCallFields id item).id ≠ [] := fun hnil => hid (congrArg cStr hnil)
  have hname' : (readFunctionCallFields id item).name ≠ [] := fun hnil => hname (congrArg cStr hnil)
  rw [Option.isNone_map] at harguments
  rw [if_neg hid', if_neg hname', if_neg harguments]

theorem inputItem_cStr {node : Json} {item : InputItem} (h : inputItem cStr node = .ok item) :
    ∃ whole, inputItem id node = .ok whole ∧ item = whole.cut := by
  obtain ⟨kind, hkind, h⟩ := bind_eq_ok.mp h
  simp only [inputItem, hkind]
  cases kind with
  | REASONING =>
    obtain rfl := Except.ok.inj h
    exact ⟨_, rfl, congrArg InputItem.reasoning (extractReasoningText_cStr node)⟩
  | FUNCTION_CALL =>
    obtain ⟨_, hvalid, h⟩ := bind_eq_ok.mp h
    obtain rfl := Except.ok.inj h
    refine ⟨.functionCall (readFunctionCallFields id node), ?_, congrArg InputItem.functionCall (readFunctionCallFields_cStr node)⟩
    show (validateFunctionCallItem id node >>= _) = _
    rw [validateFunctionCallItem_cStr hvalid]
    rfl
  | FUNCTION_CALL_OUTPUT =>
    obtain rfl := Except.ok.inj h
    refine ⟨_, rfl, ?_⟩
    rw [stringMember_cStr, stringMember_cStr, getD_cStr, getD_cStr]
    rfl
  | ROLE_ITEM =>
    obtain ⟨content, hcontent, h⟩ := bind_eq_ok.mp h
    obtain rfl := Except.ok.inj h
    rw [contentOf_cStr] at hcontent
    cases hwhole : contentOf id node with
    | error e =>
      rw [hwhole] at hcontent
      cases hcontent
    | ok whole =>
      rw [hwhole] at hcontent
      obtain rfl := Except.ok.inj hcontent
      refine ⟨.roleItem ((stringMember id "role" node).getD []) whole, rfl, ?_⟩
      rw [stringMember_cStr, getD_cStr]
      rfl
  | MISSING_ROLE => cases h

theorem mapM_inputItem_cStr {nodes : List Json} {items : List InputItem} (h : nodes.mapM (inputItem cStr) = .ok items) :
    ∃ whole, nodes.mapM (inputItem id) = .ok whole ∧ items = whole.map InputItem.cut := by
  induction nodes generalizing items with
  | nil =>
    obtain rfl := Except.ok.inj h
    exact ⟨[], rfl, rfl⟩
  | cons node nodes ih =>
    rw [List.mapM_cons] at h
    obtain ⟨item, hitem, h⟩ := bind_eq_ok.mp h
    obtain ⟨items', hitems, h⟩ := bind_eq_ok.mp h
    obtain rfl := Except.ok.inj h
    obtain ⟨whole, hwhole, rfl⟩ := inputItem_cStr hitem
    obtain ⟨wholes, hwholes, rfl⟩ := ih hitems
    refine ⟨whole :: wholes, ?_, rfl⟩
    rw [List.mapM_cons, hwhole, hwholes]
    rfl

end Reading

section Texts

/-- All the texts of the fields. -/
def FunctionCallFields.flat (fields : FunctionCallFields) : Str := fields.id ++ fields.name ++ fields.arguments

def ContentEntry.flat : ContentEntry → Str
  | .text s => s
  | .image_url url => url
  | .input_audio data format => data ++ format

def Content.flat : Content → Str
  | .string contentText => contentText
  | .array entries => entries.flatMap ContentEntry.flat

/-- All the texts of an item that are to be in the chat history. -/
def InputItem.flat : InputItem → Str
  | .reasoning text => text
  | .functionCall fields => fields.flat
  | .functionCallOutput callId output => callId ++ output
  | .roleItem role content => role ++ content.flat

def Carried.flat : Carried → Str
  | .reasoning text => text
  | .functionCall fields => fields.flat

def Own.flat : Own → Str
  | .functionCallOutput callId output => callId ++ output
  | .roleItem role content => role ++ content.flat

/-- All the texts of a message. -/
def Message.flat (m : Message) : Str :=
  m.role ++ m.content.flat ++ m.tool_call_id.getD [] ++ m.reasoning_content.getD [] ++
    (m.tool_calls.getD []).flatMap FunctionCallFields.flat

theorem zero_notMem_cStr (str : Str) : 0 ∉ cStr str := by
  intro hm
  have hne := List.mem_takeWhile_imp hm
  simp at hne

theorem cStr_eq_self {str : Str} (h : 0 ∉ str) : cStr str = str := by
  rw [cStr, List.takeWhile_eq_self_iff]
  intro c hc
  exact decide_eq_true fun hzero => h (hzero ▸ hc)

theorem FunctionCallFields.cut_eq_self {fields : FunctionCallFields} (h : 0 ∉ fields.flat) : fields.cut = fields := by
  rw [flat, List.mem_append, List.mem_append, not_or, not_or] at h
  rw [cut, cStr_eq_self h.1.1, cStr_eq_self h.1.2, cStr_eq_self h.2]

theorem FunctionCallFields.zero_notMem_cut (fields : FunctionCallFields) : 0 ∉ fields.cut.flat := by
  rw [flat, List.mem_append, List.mem_append, not_or, not_or]
  exact ⟨⟨zero_notMem_cStr _, zero_notMem_cStr _⟩, zero_notMem_cStr _⟩

theorem ContentEntry.cut_eq_self {entry : ContentEntry} (h : 0 ∉ entry.flat) : entry.cut = entry := by
  cases entry with
  | text s => exact congrArg ContentEntry.text (cStr_eq_self h)
  | image_url url => exact congrArg ContentEntry.image_url (cStr_eq_self h)
  | input_audio data format =>
    rw [flat, List.mem_append, not_or] at h
    rw [cut, cStr_eq_self h.1, cStr_eq_self h.2]

theorem ContentEntry.zero_notMem_cut (entry : ContentEntry) : 0 ∉ entry.cut.flat := by
  cases entry with
  | text s => exact zero_notMem_cStr s
  | image_url url => exact zero_notMem_cStr url
  | input_audio data format =>
    rw [cut, flat, List.mem_append, not_or]
    exact ⟨zero_notMem_cStr data, zero_notMem_cStr format⟩

theorem Content.cut_eq_self {content : Content} (h : 0 ∉ content.flat) : content.cut = content := by
  cases content with
  | string contentText => exact congrArg Content.string (cStr_eq_self h)
  | array entries =>
    refine congrArg Content.array ?_
    refine (List.map_congr_left fun entry hm => ContentEntry.cut_eq_self fun hzero => h ?_).trans (List.map_id' entries)
    exact List.mem_flatMap.mpr ⟨entry, hm, hzero⟩

theorem Content.zero_notMem_cut (content : Content) : 0 ∉ content.cut.flat := by
  cases content with
  | string contentText => exact zero_notMem_cStr contentText
  | array entries =>
    intro hm
    obtain ⟨entry, hentry, hm⟩ := List.mem_flatMap.mp hm
    obtain ⟨whole, -, rfl⟩ := List.mem_map.mp hentry
    exact whole.zero_notMem_cut hm

theorem InputItem.cut_eq_self {item : InputItem} (h : 0 ∉ item.flat) : item.cut = item := by
  cases item with
  | reasoning text => exact congrArg InputItem.reasoning (cStr_eq_self h)
  | functionCall fields => exact congrArg InputItem.functionCall (FunctionCallFields.cut_eq_self h)
  | functionCallOutput callId output =>
    rw [flat, List.mem_append, not_or] at h
    rw [cut, cStr_eq_self h.1, cStr_eq_self h.2]
  | roleItem role content =>
    rw [flat, List.mem_append, not_or] at h
    rw [cut, cStr_eq_self h.1, Content.cut_eq_self h.2]

theorem InputItem.zero_notMem_cut (item : InputItem) : 0 ∉ item.cut.flat := by
  cases item with
  | reasoning text => exact zero_notMem_cStr text
  | functionCall fields => exact fields.zero_notMem_cut
  | functionCallOutput callId output =>
    rw [cut, flat, List.mem_append, not_or]
    exact ⟨zero_notMem_cStr callId, zero_notMem_cStr output⟩
  | roleItem role content =>
    rw [cut, flat, List.mem_append, not_or]
    exact ⟨zero_notMem_cStr role, content.zero_notMem_cut⟩

theorem zero_mem_lines {texts : List Str} : 0 ∈ lines texts ↔ ∃ text ∈ texts, 0 ∈ text := by
  have hline : 0 ≠ char '\n' := by decide
  cases texts with
  | nil => simp [lines]
  | cons text texts => simp [lines, Separators.joined, hline]

theorem zero_mem_carried {things : List (Nat × Carried)} :
    (∃ thing ∈ things, 0 ∈ thing.2.flat) ↔
      0 ∈ lines (reasonings things) ∨ 0 ∈ (calls things).flatMap FunctionCallFields.flat := by
  rw [zero_mem_lines, List.mem_flatMap]
  constructor
  · rintro ⟨⟨number, text | fields⟩, hm, hzero⟩
    · exact .inl ⟨text, List.mem_filterMap.mpr ⟨_, hm, rfl⟩, hzero⟩
    · exact .inr ⟨fields, List.mem_filterMap.mpr ⟨_, hm, rfl⟩, hzero⟩
  · rintro (⟨text, hm, hzero⟩ | ⟨fields, hm, hzero⟩)
    · obtain ⟨⟨number, _ | _⟩, hm, ⟨⟩⟩ := List.mem_filterMap.mp hm
      exact ⟨_, hm, hzero⟩
    · obtain ⟨⟨number, _ | _⟩, hm, ⟨⟩⟩ := List.mem_filterMap.mp hm
      exact ⟨_, hm, hzero⟩

/-- The texts of a message are those of the turn. -/
theorem zero_mem_message {turn : Turn Carried Own} :
    0 ∈ (message turn).flat ↔ (∃ thing ∈ turn.carried, 0 ∈ thing.2.flat) ∨ ∃ own, turn.own = some own ∧ 0 ∈ own.2.flat := by
  have hreasoning : (message turn).reasoning_content.getD [] = lines (reasonings turn.carried) := by
    simp only [message]
    split
    next hnone => rw [hnone]; rfl
    next => rfl
  have hcalls : (message turn).tool_calls.getD [] = calls turn.carried := by
    simp only [message]
    split
    next hnone => rw [hnone]; rfl
    next => rfl
  have hown : 0 ∈ (message turn).role ++ (message turn).content.flat ++ (message turn).tool_call_id.getD [] ↔
      ∃ own, turn.own = some own ∧ 0 ∈ own.2.flat := by
    have hassistant : 0 ∉ bytes "assistant" := by decide
    have htool : 0 ∉ bytes "tool" := by decide
    obtain ⟨carried, own⟩ := turn
    rcases own with _ | ⟨number, ⟨callId, output⟩ | ⟨role, content⟩⟩
    · simp only [message, Content.flat, List.append_nil, Option.getD_none, hassistant, reduceCtorEq, false_and, exists_false]
    · by_cases hid : callId = []
      · simp only [message, hid, ↓reduceIte, Content.flat, Own.flat, Option.getD_none, List.append_nil, List.nil_append, List.mem_append,
          htool, false_or, Option.some.injEq, exists_eq_left']
      · simp only [message, hid, ↓reduceIte, Content.flat, Own.flat, Option.getD_some, List.append_assoc, List.mem_append, htool,
          or_comm, false_or, Option.some.injEq, exists_eq_left']
    · simp only [message, Own.flat, Option.getD_none, List.append_nil, List.mem_append, Option.some.injEq, exists_eq_left']
  rw [Message.flat, hreasoning, hcalls, List.mem_append, List.mem_append, hown, zero_mem_carried, or_assoc, or_comm]

theorem InputItem.zero_mem_entry (item : InputItem) (number : Nat) :
    0 ∈ item.flat ↔ (∃ thing ∈ ((item.entry.map (number, ·)).toList).filterMap held, 0 ∈ thing.2.flat) ∨
      ∃ own ∈ ((item.entry.map (number, ·)).toList).filterMap owned, 0 ∈ own.2.flat := by
  have hcarried (only : Nat × Carried) : (∃ thing ∈ [only], 0 ∈ thing.2.flat) ∨ (∃ own ∈ ([] : List (Nat × Own)), 0 ∈ own.2.flat) ↔
      0 ∈ only.2.flat := by
    simp only [List.mem_singleton, exists_eq_left, List.not_mem_nil, false_and, exists_false, or_false]
  have hown (only : Nat × Own) : (∃ thing ∈ ([] : List (Nat × Carried)), 0 ∈ thing.2.flat) ∨ (∃ own ∈ [only], 0 ∈ own.2.flat) ↔
      0 ∈ only.2.flat := by
    simp only [List.mem_singleton, exists_eq_left, List.not_mem_nil, false_and, exists_false, false_or]
  cases item with
  | reasoning text =>
    by_cases htext : text = []
    · simp [entry, flat, htext]
    · rw [entry, if_neg htext]
      exact (hcarried (number, .reasoning text)).symm
  | functionCall fields => exact (hcarried (number, .functionCall fields)).symm
  | functionCallOutput callId output => exact (hown (number, .functionCallOutput callId output)).symm
  | roleItem role content => exact (hown (number, .roleItem role content)).symm

/-- And the texts of the entries are those of the items. -/
theorem zero_mem_entries {items : List InputItem} (first : Nat) :
    (∃ item ∈ items, 0 ∈ item.flat) ↔ (∃ thing ∈ (entries first items).filterMap held, 0 ∈ thing.2.flat) ∨
      ∃ own ∈ (entries first items).filterMap owned, 0 ∈ own.2.flat := by
  induction items generalizing first with
  | nil => simp [entries]
  | cons item items ih =>
    rw [List.exists_mem_cons_iff, ih (first + 1), item.zero_mem_entry first, entries_cons, List.filterMap_append, List.filterMap_append]
    simp only [List.mem_append, or_and_right, exists_or]
    exact or_or_or_comm

/-- A text with a NUL is in the messages exactly when it is in the items. -/
theorem Converted.zero_mem {items : List InputItem} {messages : List Message} (h : Converted items messages) :
    (∃ m ∈ messages, 0 ∈ m.flat) ↔ ∃ item ∈ items, 0 ∈ item.flat := by
  obtain ⟨turns, hconveyed, rfl⟩ := h
  rw [zero_mem_entries 0, ← hconveyed.carried, ← hconveyed.own]
  constructor
  · rintro ⟨m, hm, hzero⟩
    obtain ⟨turn, hturn, rfl⟩ := List.mem_map.mp hm
    rcases zero_mem_message.mp hzero with ⟨thing, hthing, hzero⟩ | ⟨own, hown, hzero⟩
    · exact .inl ⟨thing, List.mem_flatMap.mpr ⟨turn, hturn, hthing⟩, hzero⟩
    · exact .inr ⟨own, List.mem_filterMap.mpr ⟨turn, hturn, hown⟩, hzero⟩
  · rintro (⟨thing, hm, hzero⟩ | ⟨own, hm, hzero⟩)
    · obtain ⟨turn, hturn, hthing⟩ := List.mem_flatMap.mp hm
      exact ⟨_, List.mem_map_of_mem hturn, zero_mem_message.mpr (.inl ⟨thing, hthing, hzero⟩)⟩
    · obtain ⟨turn, hturn, hown⟩ := List.mem_filterMap.mp hm
      exact ⟨_, List.mem_map_of_mem hturn, zero_mem_message.mpr (.inr ⟨own, hown, hzero⟩)⟩

def textMember (name value : String) : Str × Json := (bytes name, .str (bytes value))

def rainInput : List Json := [
  .obj [textMember "type" "reasoning", (bytes "summary", .arr [.obj [textMember "text" "Look outside."]])],
  .obj [textMember "type" "function_call", textMember "call_id" "1", textMember "name" "look", textMember "arguments" "\x7b\x7d"],
  .obj [textMember "type" "function_call_output", textMember "call_id" "1", textMember "output" "rain"],
  .obj [textMember "role" "assistant", (bytes "content",
    .arr [.obj [textMember "type" "output_text", textMember "text" "It rains."]])]]

def rainHistory : List Message := [
  { role := bytes "assistant"
    content := .string []
    reasoning_content := some (bytes "Look outside.")
    tool_calls := some [⟨bytes "1", bytes "look", bytes "\x7b\x7d"⟩] },
  { role := bytes "tool", content := .string (bytes "rain"), tool_call_id := some (bytes "1") },
  { role := bytes "assistant", content := .array [.text (bytes "It rains.")] }]

end Texts

end ModelServer.ResponsesInput
