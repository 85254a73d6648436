import ModelServer.Qwen3CoderPublication

namespace ModelServer.Qwen3CoderToolParser

open Occurrence Impl

/-- A delta whose random id is left out. -/
def anonymous (delta : ToolCallDelta) : ToolCallDelta :=
  { delta with id := delta.id.map fun _ => [] }

/-- The deltas of the tool calls among `ds`, ids left out. -/
def anonymousCalls (ds : List Delta) : List ToolCallDelta := (toolCallDeltas ds).map anonymous

@[simp] theorem anonymousCalls_append (ds es : List Delta) :
    anonymousCalls (ds ++ es) = anonymousCalls ds ++ anonymousCalls es := by
  simp [anonymousCalls]

/-- Every delta is one of a tool call. -/
def OnlyCalls (ds : List Delta) : Prop := ∀ d ∈ ds, ∃ call, d = .toolCall call

theorem OnlyCalls.texts {ds : List Delta} (h : OnlyCalls ds) :
    contentText ds = [] ∧ reasoningText ds = [] := by
  induction ds with
  | nil => exact ⟨rfl, rfl⟩
  | cons d ds ih =>
    obtain ⟨call, rfl⟩ := h d (by simp)
    exact ih fun e he => h e (by simp [he])

theorem OnlyCalls.append {ds es : List Delta} (h : OnlyCalls ds) (h' : OnlyCalls es) :
    OnlyCalls (ds ++ es) := by
  intro d hd
  rcases List.mem_append.mp hd with hd | hd
  · exact h d hd
  · exact h' d hd

section OnlyCalls

variable (env : Environment)

theorem queueFullDeltas_onlyCalls {p : Parser} (hp : OnlyCalls p.pendingDeltas)
    (calls : List ToolCall) : OnlyCalls (p.queueFullDeltas env calls).pendingDeltas := by
  induction calls generalizing p with
  | nil => exact hp
  | cons call calls ih =>
    refine ih ?_
    unfold Parser.queueFullDelta
    split
    · exact hp
    split
    · exact hp
    · refine hp.append ?_
      intro d hd
      simp only [Parser.fullDeltas, List.mem_cons, List.not_mem_nil, or_false] at hd
      rcases hd with rfl | rfl
      · exact ⟨_, rfl⟩
      · exact ⟨_, rfl⟩

theorem receive_onlyCalls {p : Parser} (hp : OnlyCalls p.pendingDeltas) (chunk : Str) :
    OnlyCalls (p.receive env chunk).pendingDeltas := by
  unfold Parser.receive
  apply queueFullDeltas_onlyCalls
  exact hp

theorem recover_onlyCalls {p : Parser} (hp : OnlyCalls p.pendingDeltas) :
    OnlyCalls (p.recover env).pendingDeltas := by
  unfold Parser.recover
  apply queueFullDeltas_onlyCalls
  exact hp

theorem consume_onlyCalls {p : Parser} (hp : OnlyCalls p.pendingDeltas) (chunk : Str)
    (finishReason : FinishReason) :
    OnlyCalls (p.consume env chunk finishReason).pendingDeltas := by
  have hreceive : OnlyCalls (if chunk.isEmpty then p else p.receive env chunk).pendingDeltas := by
    split
    · exact hp
    · exact receive_onlyCalls env hp chunk
  unfold Parser.consume
  by_cases hstop : finishReason = .stop
  · simp only [hstop, if_true]
    exact recover_onlyCalls env hreceive
  · simp only [hstop, if_false]
    exact hreceive

end OnlyCalls

variable (env : Environment)

/-- Whether a call of this name with these arguments is published. -/
def accepts (invocation : Str × Str) : Bool :=
  match env.toolSchemas.lookup invocation.1 with
  | some wrapper => env.validateQwenXmlToolArguments wrapper.stringRepr invocation.2
  | none => false

/-- The deltas of the accepted calls among these, after `index` others. -/
def announce (index : Int) : List (Str × Str) → List ToolCallDelta
  | [] => []
  | invocation :: invocations =>
    if accepts env invocation then
      ⟨index + 1, some [], some invocation.1, []⟩ :: ⟨index + 1, none, none, invocation.2⟩ ::
        announce (index + 1) invocations
    else announce index invocations

def lastIndex (index : Int) (invocations : List (Str × Str)) : Int :=
  index + (invocations.countP (accepts env) : Nat)

theorem announce_append (index : Int) (front back : List (Str × Str)) :
    announce env index (front ++ back) =
      announce env index front ++ announce env (lastIndex env index front) back := by
  induction front generalizing index with
  | nil => simp [announce, lastIndex]
  | cons invocation front ih =>
    have hindex : lastIndex env index (invocation :: front) =
        lastIndex env (if accepts env invocation then index + 1 else index) front := by
      simp only [lastIndex, List.countP_cons]
      split <;> push_cast <;> omega
    rw [hindex]
    simp only [List.cons_append, announce]
    split
    · rw [ih, List.cons_append, List.cons_append]
    · exact ih index

theorem lastIndex_append (index : Int) (front back : List (Str × Str)) :
    lastIndex env index (front ++ back) = lastIndex env (lastIndex env index front) back := by
  simp only [lastIndex, List.countP_append]
  push_cast
  omega

theorem queueFullDelta_accepts (p : Parser) (call : ToolCall) :
    (p.queueFullDelta env call).toolCallIndex = lastIndex env p.toolCallIndex [call.invocation] ∧
      anonymousCalls (p.queueFullDelta env call).pendingDeltas =
        anonymousCalls p.pendingDeltas ++ announce env p.toolCallIndex [call.invocation] := by
  have haccepts : accepts env call.invocation =
      (Parser.isRegisteredToolName env call.name && Parser.hasValidArguments env call) := by
    unfold accepts Parser.isRegisteredToolName Parser.hasValidArguments
    cases hw : env.toolSchemas.lookup call.name <;> simp [ToolCall.invocation, hw]
  unfold Parser.queueFullDelta
  by_cases hr : Parser.isRegisteredToolName env call.name
  · by_cases hv : Parser.hasValidArguments env call
    · have hyes : accepts env (call.name, call.arguments) = true := by
        simpa [hr, hv, ToolCall.invocation] using haccepts
      simp [hr, hv, lastIndex, announce, hyes, Parser.fullDeltas, anonymousCalls, toolCallDeltas,
        anonymous, ToolCall.invocation]
    · have hno : accepts env call.invocation = false := by simp [haccepts, hv]
      simp [hr, hv, lastIndex, announce, hno]
  · have hno : accepts env call.invocation = false := by simp [haccepts, hr]
    simp [hr, lastIndex, announce, hno]

theorem queueFullDeltas_accepts (p : Parser) (calls : List ToolCall) :
    (∃ n, (p.queueFullDeltas env calls).streamParser = { p.streamParser with drawnIds := n }) ∧
      (p.queueFullDeltas env calls).toolCallIndex =
        lastIndex env p.toolCallIndex (calls.map ToolCall.invocation) ∧
      anonymousCalls (p.queueFullDeltas env calls).pendingDeltas =
        anonymousCalls p.pendingDeltas ++
          announce env p.toolCallIndex (calls.map ToolCall.invocation) := by
  induction calls generalizing p with
  | nil => exact ⟨⟨_, rfl⟩, by simp [Parser.queueFullDeltas, lastIndex],
      by simp [Parser.queueFullDeltas, announce]⟩
  | cons call calls ih =>
    obtain ⟨⟨n, hparser⟩, hindex, hdeltas⟩ := ih (p.queueFullDelta env call)
    obtain ⟨m, hone⟩ := queueFullDelta_streamParser env p call
    obtain ⟨hindex', hdeltas'⟩ := queueFullDelta_accepts env p call
    have hmap : (call :: calls).map ToolCall.invocation =
        [call.invocation] ++ calls.map ToolCall.invocation := rfl
    rw [hmap, lastIndex_append, announce_append, ← List.append_assoc, ← hindex', ← hdeltas']
    refine ⟨⟨n, ?_⟩, hindex, hdeltas⟩
    rw [hone] at hparser
    exact hparser

namespace Impl

/-- A parser that has read `text`. -/
abbrev readOf (text : Str) : Impl × List ToolCall :=
  ((fresh 0).append text).parseAll env.rapidJson env.randomIds env.types

/-- The calls that a text closes. -/
def closedIn (text : Str) : List (Str × Str) := (readOf env text).2.map ToolCall.invocation

/-- The call that a stop after a text recovers. -/
def recoveredAfter (text : Str) : List (Str × Str) :=
  (((readOf env text).1.finalizeOnGenerationEnd env.rapidJson env.randomIds env.types).1.getD []).map
    ToolCall.invocation

theorem Alike.redraw {p q : Impl} (h : Alike p q) (n : Nat) : Alike p { q with drawnIds := n } :=
  ⟨h.currentState, h.currentFunction, h.unread, h.parameterName⟩

theorem Alike.append {p q : Impl} (h : Alike p q) (hp : p.WellPlaced) (hq : q.WellPlaced) (x : Str) :
    Alike (p.append x) (q.append x) := by
  refine ⟨h.currentState, h.currentFunction, ?_, h.parameterName⟩
  rw [hp.unread_append, hq.unread_append, h.unread]

theorem readOf_settled (text : Str) : (readOf env text).1.WellPlaced ∧ (readOf env text).1.Quiet :=
  parseAll_settled env.rapidJson env.randomIds env.types ((fresh_wellPlaced 0).append text) rfl

theorem readOf_append (text x : Str) :
    readOf env (text ++ x) =
      ((((readOf env text).1.append x).parseAll env.rapidJson env.randomIds env.types).1,
        (readOf env text).2 ++
          (((readOf env text).1.append x).parseAll env.rapidJson env.randomIds env.types).2) := by
  have h := parseAll_append env.rapidJson env.randomIds env.types ((fresh_wellPlaced 0).append text) x
  rwa [append_append] at h

end Impl

theorem getD_invocations (calls : Option (List ToolCall)) :
    (calls.map (List.map ToolCall.invocation)).getD [] = (calls.getD []).map ToolCall.invocation := by
  cases calls <;> rfl

/-- The parser has read `text` and published what that closes. -/
structure Follows (text : Str) (p : Parser) : Prop where
  alike : Alike (readOf env text).1 p.streamParser
  placed : p.streamParser.WellPlaced
  quiet : p.streamParser.Quiet
  index : p.toolCallIndex = lastIndex env (-1) (closedIn env text)

theorem readOf_nil : readOf env [] = (fresh 0, []) := by
  rw [readOf, append_nil]
  exact parseAll_quiet _ _ _ (fresh_quiet 0)

theorem closedIn_nil : closedIn env [] = [] := by
  rw [closedIn, readOf_nil]
  rfl

theorem follows_fresh (n : Nat) : Follows env [] { streamParser := fresh n } := by
  refine ⟨?_, fresh_wellPlaced n, fresh_quiet n, ?_⟩
  · rw [readOf_nil]
    exact ⟨rfl, rfl, rfl, fun _ => rfl⟩
  · rw [closedIn_nil]
    rfl

/-- A chunk adds the deltas of the calls it closes. -/
theorem Follows.consume {text : Str} {p : Parser} (h : Follows env text p) (chunk : Str) :
    ∃ more, closedIn env (text ++ chunk) = closedIn env text ++ more ∧
      anonymousCalls (p.consume env chunk .none).pendingDeltas =
        anonymousCalls p.pendingDeltas ++ announce env p.toolCallIndex more ∧
      Follows env (text ++ chunk) (p.consume env chunk .none) := by
  by_cases hc : chunk = []
  · subst hc
    refine ⟨[], by simp, by simp [Parser.consume, announce], ?_⟩
    simpa [Parser.consume] using h
  have hparse := parseChunk_eq env.rapidJson env.randomIds env.types h.quiet chunk
  obtain ⟨halike, hcalls⟩ := parseAll_alike env.rapidJson env.randomIds env.randomIds env.types
    (h.alike.append (readOf_settled env text).1 h.placed chunk)
  have hread := readOf_append env text chunk
  obtain ⟨hplaced, hquiet⟩ := parseAll_settled env.rapidJson env.randomIds env.types
    (h.placed.append chunk) hparse.symm
  rw [← hparse] at halike hcalls
  let next := p.streamParser.parseChunk env.rapidJson env.randomIds env.types chunk
  let more := (next.1.getD []).map ToolCall.invocation
  have hclosed : closedIn env (text ++ chunk) = closedIn env text ++ more := by
    rw [closedIn, hread, List.map_append, ← hcalls]
    rfl
  have hconsume : p.consume env chunk .none =
      ({ p with streamParser := next.2 } : Parser).queueFullDeltas env (next.1.getD []) := by
    simp [Parser.consume, hc, Parser.receive, next]
  obtain ⟨⟨n, hparser⟩, hindex, hdeltas⟩ :=
    queueFullDeltas_accepts env ({ p with streamParser := next.2 } : Parser) (next.1.getD [])
  rw [hconsume]
  refine ⟨more, hclosed, hdeltas, ?_, ?_, ?_, ?_⟩
  · rw [hparser, hread]
    exact halike.redraw n
  · rw [hparser]
    exact hplaced
  · rw [hparser]
    exact hquiet
  · rw [hindex, hclosed, lastIndex_append, ← h.index]

/-- A stop adds the deltas of the call it recovers. -/
theorem Follows.stop {text : Str} {p : Parser} (h : Follows env text p) :
    anonymousCalls (p.consume env [] .stop).pendingDeltas =
      anonymousCalls p.pendingDeltas ++ announce env p.toolCallIndex (recoveredAfter env text) := by
  obtain ⟨_, _, hdeltas⟩ := queueFullDeltas_accepts env
    ({ p with streamParser := (p.streamParser.finalizeOnGenerationEnd env.rapidJson env.randomIds
      env.types).2 } : Parser)
    ((p.streamParser.finalizeOnGenerationEnd env.rapidJson env.randomIds env.types).1.getD [])
  have hsame := finalizeOnGenerationEnd_alike env.rapidJson env.randomIds env.randomIds env.types
    (readOf_settled env text).1 h.placed h.alike
  have hcalls : ((p.streamParser.finalizeOnGenerationEnd env.rapidJson env.randomIds env.types).1.getD
      []).map ToolCall.invocation = recoveredAfter env text := by
    have h := congrArg (Option.getD · []) hsame
    rwa [getD_invocations, getD_invocations] at h
  rw [hcalls] at hdeltas
  exact hdeltas

/-- All calls of a text that is followed by a stop. -/
def invocations (text : Str) : List (Str × Str) := closedIn env text ++ recoveredAfter env text

/-- The tool parser after a delivery and a full drain. -/
def delivered (p : Parser) (chunk : Str) (finishReason : FinishReason) : Parser :=
  { p.consume env chunk finishReason with pendingDeltas := [] }

/-- Pieces delivered one by one, each followed by a full drain. -/
def deliver (p : Parser) : List Str → List Delta × Parser
  | [] => ([], p)
  | piece :: pieces =>
    let (ds, q) := deliver (delivered env p piece .none) pieces
    ((p.consume env piece .none).pendingDeltas ++ ds, q)

theorem deliver_append (p : Parser) (front back : List Str) :
    deliver env p (front ++ back) =
      ((deliver env p front).1 ++ (deliver env (deliver env p front).2 back).1,
        (deliver env (deliver env p front).2 back).2) := by
  induction front generalizing p with
  | nil => rfl
  | cons piece front ih => simp [deliver, ih]

theorem deliver_onlyCalls {p : Parser} (hp : OnlyCalls p.pendingDeltas) (pieces : List Str) :
    OnlyCalls (deliver env p pieces).1 := by
  induction pieces generalizing p with
  | nil => simp [deliver, OnlyCalls]
  | cons piece pieces ih =>
    exact (consume_onlyCalls env hp piece .none).append (ih (p := delivered env p piece .none) (by
      simp [delivered, OnlyCalls]))

/-- Pieces add the deltas of the calls they close. -/
theorem Follows.deliver {text : Str} {p : Parser} (h : Follows env text p) (hp : p.pendingDeltas = [])
    (pieces : List Str) :
    ∃ more, closedIn env (text ++ pieces.flatten) = closedIn env text ++ more ∧
      anonymousCalls (deliver env p pieces).1 = announce env p.toolCallIndex more ∧
      Follows env (text ++ pieces.flatten) (deliver env p pieces).2 := by
  induction pieces generalizing text p with
  | nil =>
    rw [List.flatten_nil, List.append_nil]
    exact ⟨[], (List.append_nil _).symm, rfl, h⟩
  | cons piece pieces ih =>
    obtain ⟨first, hclosed, hdeltas, hnext⟩ := h.consume env piece
    have hindex : (delivered env p piece .none).toolCallIndex = lastIndex env p.toolCallIndex first := by
      rw [h.index, ← lastIndex_append, ← hclosed]
      exact hnext.index
    have hnext' : Follows env (text ++ piece) (delivered env p piece .none) :=
      ⟨hnext.alike, hnext.placed, hnext.quiet, hnext.index⟩
    obtain ⟨more, hclosed', hdeltas', hlast⟩ := ih hnext' rfl
    rw [List.append_assoc] at hclosed' hlast
    refine ⟨first ++ more, ?_, ?_, hlast⟩
    · rw [List.flatten_cons, hclosed', hclosed, List.append_assoc]
    · rw [announce_append, ← hindex, ← hdeltas']
      simp only [Qwen3CoderToolParser.deliver, anonymousCalls_append, hdeltas, hp]
      rfl

theorem deliver_drained {p : Parser} (hp : p.pendingDeltas = []) (pieces : List Str) :
    (deliver env p pieces).2.pendingDeltas = [] := by
  induction pieces generalizing p with
  | nil => exact hp
  | cons piece pieces ih => exact ih (p := delivered env p piece .none) rfl

/-- Pieces and a stop publish the calls of the joined text. -/
theorem deliver_stop (n : Nat) (pieces : List Str) :
    let p : Parser := { streamParser := fresh n }
    anonymousCalls (deliver env p pieces).1 ++
        anonymousCalls ((deliver env p pieces).2.consume env [] .stop).pendingDeltas =
      announce env (-1) (invocations env pieces.flatten) := by
  intro p
  obtain ⟨more, hclosed, hdeltas, hlast⟩ := (follows_fresh env n).deliver env rfl pieces
  rw [List.nil_append] at hclosed hlast
  have hstop := hlast.stop env
  rw [deliver_drained env rfl] at hstop
  rw [hdeltas, hstop, hlast.index, invocations, announce_append, hclosed, closedIn_nil]
  rfl

section Skip

theorem invocations_of_alike {left right : Str}
    (halike : Alike (readOf env left).1 (readOf env right).1)
    (hcalls : (readOf env right).2.map ToolCall.invocation =
      (readOf env left).2.map ToolCall.invocation) :
    invocations env right = invocations env left := by
  have hsame := finalizeOnGenerationEnd_alike env.rapidJson env.randomIds env.randomIds env.types
    (readOf_settled env left).1 (readOf_settled env right).1 halike
  have hrecovered : recoveredAfter env right = recoveredAfter env left := by
    have h := congrArg (Option.getD · []) hsame
    rwa [getD_invocations, getD_invocations] at h
  rw [invocations, invocations, closedIn, closedIn, hcalls, hrecovered]

theorem invocations_eq_nil {text : Str} (hn : ∀ tag ∈ marks .content, ¬ tag <:+: text) :
    invocations env text = [] := by
  have hq : ((fresh 0).append text).Quiet := fun tag hm i hat =>
    hn tag hm (infix_iff_at.mpr ⟨i, hat⟩)
  have hread : readOf env text = ((fresh 0).append text, []) := parseAll_quiet _ _ _ hq
  rw [invocations, closedIn, recoveredAfter, hread]
  rfl

/-- The first tag of a call is read alike wherever it stands. -/
theorem fire_content_alike {p q : Impl} {m : Str} {i j : Nat} (hp : p.currentState = .content)
    (hq : q.currentState = .content) (hf : q.currentFunction = p.currentFunction)
    (hm : m ∈ marks .content)
    (hread : q.unread.drop (j + m.length) = p.unread.drop (i + m.length)) :
    Alike (fire env.rapidJson env.randomIds env.types p m i []).1
      (fire env.rapidJson env.randomIds env.types q m j []).1 := by
  have hm' {r : Impl} (hr : r.currentState = .content) : m ∈ (delimiters r.currentState).marks := by
    rw [hr]
    exact hm
  have hunread := fire_unread env.rapidJson env.randomIds env.types i [] (hm' hp)
  have hunread' := fire_unread env.rapidJson env.randomIds env.types j [] (hm' hq)
  simp only [hp, hq, ne_eq, not_true_eq_false, and_false, if_false] at hunread hunread'
  refine ⟨?_, ?_, hunread'.trans (hread.trans hunread.symm), ?_⟩
  all_goals
    simp only [fire, hp, hq]
    split <;> simp [openToolCall, openBareFunction, pushBegin, hf]

/-- Text before the first call can be left out. -/
theorem invocations_append_of_clear {front back : Str}
    (hnone : ∀ tag ∈ marks .content, ¬ tag <:+: front)
    (hclear : ∀ tag ∈ marks .content, stringsOverlap front tag = false) :
    invocations env (front ++ back) = invocations env back := by
  have hne : ∀ tag ∈ marks .content, tag ≠ [] := (delimiters .content).nonempty
  rcases ((fresh 0).append back).fires_or_quiet with ⟨m, i, he⟩ | hq
  · have hfirst : Earliest (delimiters ((fresh 0).append (front ++ back)).currentState)
        ((fresh 0).append (front ++ back)).unread m (front.length + i) := by
      refine ⟨he.mem, at_append_left.mpr he.here, ?_⟩
      intro tag hm j hj hat
      have hle := length_le_of_clear (hne tag hm) (hnone tag hm) (hclear tag hm) hat
      obtain ⟨k, rfl⟩ := Nat.exists_eq_add_of_le hle
      exact he.first tag hm k (by omega) (at_append_left.mp hat)
    have hread : (front ++ back).drop (front.length + i + m.length) = back.drop (i + m.length) := by
      rw [Nat.add_assoc, ← List.drop_drop, List.drop_left]
    have hfire := fire_content_alike env (p := (fresh 0).append back)
      (q := (fresh 0).append (front ++ back)) rfl rfl rfl he.mem hread
    obtain ⟨halike, hcalls⟩ := parseAll_alike env.rapidJson env.randomIds env.randomIds env.types hfire
    refine invocations_of_alike env ?_ ?_
    · rw [readOf, readOf, parseAll_fire _ _ _ he, parseAll_fire _ _ _ hfirst]
      exact halike
    · rw [readOf, readOf, parseAll_fire _ _ _ he, parseAll_fire _ _ _ hfirst]
      exact hcalls
  · have hback : ∀ tag ∈ marks .content, ¬ tag <:+: back := by
      intro tag hm hin
      obtain ⟨i, hat⟩ := infix_iff_at.mp hin
      exact hq tag hm i hat
    have hboth : ∀ tag ∈ marks .content, ¬ tag <:+: front ++ back := fun tag hm hin =>
      hback tag hm ((infix_append_of_clear (hne tag hm) (hnone tag hm) (hclear tag hm)).mp hin)
    rw [invocations_eq_nil env hback, invocations_eq_nil env hboth]

end Skip

end ModelServer.Qwen3CoderToolParser
