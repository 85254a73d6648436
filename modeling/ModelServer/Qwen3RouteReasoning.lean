import ModelServer.Qwen3RouteContent

namespace ModelServer

namespace Qwen3ReasoningParser

variable {text : Str} (consumed : Bool) (finishReason : FinishReason)

/-- The deltas of one flush of reasoning text. -/
def reasoningDeltas (text : Str) : List Delta := if text.isEmpty then [] else [.reasoning text]

theorem reasoningDeltas_texts (text : Str) :
    contentText (reasoningDeltas text) = [] ∧ reasoningText (reasoningDeltas text) = text ∧
      toolCallDeltas (reasoningDeltas text) = [] := by
  cases text <;> simp [reasoningDeltas, contentText, reasoningText, toolCallDeltas]

theorem parseChunk_text (hstart : ¬ startTag <:+: text) (hend : ¬ endTag <:+: text) :
    (parseChunk consumed text finishReason).1.toList = reasoningDeltas text := by
  have hfind := find_of_none (by decide) hstart
  cases text with
  | nil => simp [parseChunk, reasoningDeltas]
  | cons c cs => simp [parseChunk, reasoningDeltas, rfind_of_none hend, hfind]

theorem parseChunk_closed (hstart : ¬ startTag <:+: text) :
    (parseChunk consumed (text ++ endTag) finishReason).1.toList = reasoningDeltas text := by
  have hfind := find_of_none (by decide) hstart
  have hne : (text ++ endTag).isEmpty = false := by simp [endTag, bytes]
  have hlast : rfind (text ++ endTag) endTag = some text.length := rfind_append (by decide)
  simp only [parseChunk, hne, hlast, List.take_left, hfind, Bool.false_eq_true, if_false, ite_self,
    reasoningDeltas]
  cases text <;> rfl

end Qwen3ReasoningParser

namespace Qwen3Route

open Qwen3ReasoningParser Qwen3CoderToolParser OutputParser

variable (env : Environment)

section Ended

variable {env} {tool : Parser} {ch : Channel} {s t : RouteState} {ds es : List Delta}

theorem Ended.prepend (h : Ended env tool ch ds t) (hes : toolCallDeltas es = []) :
    Ended env tool ch (es ++ ds) t := by
  unfold Ended at h ⊢
  rw [toolCallDeltas_append, hes, List.nil_append]
  exact h

/-- A run of chunks goes on. -/
theorem Ended.runs (htool : tool.pendingDeltas = []) (h : Ended env tool ch ds s)
    (chunks : List Str) (hthink : ch.opened = true ∨ ¬ startTag <:+: ch.text ++ chunks.flatten) :
    ∃ es t, (qwen3Route env).Runs s (chunks.map fun chunk => (chunk, .none)) es t ∧
      ch.content ++ contentText es = (chunks.foldl Channel.step ch).content ∧
      reasoningText es = [] ∧
      Ended env tool (chunks.foldl Channel.step ch) (ds ++ es) t := by
  rcases h with ⟨htag, hlisten, hnocall⟩ | ⟨htag, hdeliver, hno, hclear, pieces, hsplit, hcalls, hstate⟩
  · obtain ⟨es, t, hrun, hcontent, hreason, hend⟩ := hlisten.runs env htool htag chunks hthink
    exact ⟨es, t, hrun, hcontent, hreason, hend.prepend hnocall⟩
  · obtain ⟨t, hrun, hdeliver', hstate'⟩ := hdeliver.runs env chunks
    have honly := deliver_onlyCalls env (p := s.toolState) (by simp [hdeliver.drained, OnlyCalls]) chunks
    rw [Channel.foldl_of_tag htag]
    refine ⟨_, t, hrun, ?_, honly.texts.2, Or.inr ⟨htag.append _, hdeliver', hno, hclear,
      pieces ++ chunks, ?_, ?_, ?_⟩⟩
    · rw [honly.texts.1, List.append_nil]
      rfl
    · simp only [Channel.receive, List.flatten_append]
      rw [← List.append_assoc, hsplit]
    · rw [toolCallDeltas_append, hcalls, hstate, deliver_append, toolCallDeltas_append]
    · rw [hstate', hstate, deliver_append]

/-- What is left in the buffer behind the reasoning is drained as a chunk would be. -/
theorem Listening.drains (htool : tool.pendingDeltas = []) (h : Listening tool ch s) (ho : Open s)
    (hthink : Thoughtless ch) (hbuffer : s.buffer ≠ []) :
    ∃ ds t, Streaming.Drains (qwen3Route env).drainPendingDelta s ds t ∧
      ch.content ++ contentText ds = ch.settle.content ∧ reasoningText ds = [] ∧
      Ended env tool ch.settle ds t := by
  have hphase : BeforeTool s.processingPhase := by
    rcases h.heard hthink with hp | ⟨hp, _⟩ <;> simp [BeforeTool, hp]
  by_cases htag : HasToolTag ch.text
  · obtain ⟨t, hrun, hdeliver, hstate⟩ := h.settles_tool env ho hthink htag
    have hstep : ch.settle = ch := by simp [Channel.settle, htag]
    have honly := consume_onlyCalls env (p := tool) (by simp [htool, OnlyCalls]) s.buffer .none
    rw [hstep]
    refine ⟨_, t, hrun.drains ho hphase hbuffer, ?_, honly.texts.2,
      Or.inr ⟨htag, hdeliver, h.noTag, h.clear, [s.buffer], ?_, ?_, hstate⟩⟩
    · rw [honly.texts.1, List.append_nil]
    · simpa using h.split
    · simp [deliver]
  · obtain ⟨ds, t, hrun, hlisten, hcontent, hreason, hnocall⟩ := h.settles env ho hthink htag
    refine ⟨ds, t, hrun.drains ho hphase hbuffer, hcontent, hreason, Or.inl ⟨?_, hlisten, hnocall⟩⟩
    have htext : ch.settle.text = ch.text := by
      unfold Channel.settle
      split <;> rfl
    rwa [htext]

theorem hasToolTag_marks {text : Str} (hn : ¬ HasToolTag text) :
    ∀ tag ∈ marks .content, ¬ tag <:+: text :=
  fun _ hm hin => hn (mem_toolTags hm hin)

/-- At the stop all held content is given out, or the call that is under way is recovered. -/
theorem Ended.stop {n : Nat} (h : Ended env { streamParser := Impl.fresh n } ch ds s)
    (hthink : Thoughtless ch) :
    ∃ es t, (qwen3Route env).Runs s [([], .stop)] es t ∧ reasoningText es = [] ∧
      ch.content ++ contentText es <+: ch.text ∧
      anonymousCalls (ds ++ es) = announce env (-1) (invocations env ch.text) := by
  rcases h with ⟨htag, hlisten, hnocall⟩ | ⟨htag, hdeliver, hno, hclear, pieces, hsplit, hcalls, hstate⟩
  · have hbuffer : (s.receive [] true .stop).buffer = s.buffer := by simp [State.receive]
    have ho : Open (s.receive [] true .stop) := receive_open hlisten.visible [] .stop
    have hheard := hlisten.heard hthink
    have hnone : ¬ HasToolTag s.buffer := fun hin => htag (hlisten.hasToolTag.mpr hin)
    have hparse : (qwen3Route env).dispatch (s.receive [] true .stop) .stop =
        toContent (s.receive [] true .stop) := by
      have hphase : (s.receive [] true .stop).processingPhase = s.processingPhase := rfl
      rw [dispatch_text env ho (by rwa [hphase, hbuffer]) (by rwa [hbuffer]) (by simp [State.receive]),
        if_neg (by simp)]
    have hdrain : Streaming.Drains (qwen3Route env).drainPendingDelta
        (toContent (s.receive [] true .stop)).2 [] (toContent (s.receive [] true .stop)).2 :=
      drains_empty env ⟨rfl, rfl, hlisten.visible⟩ rfl ⟨by simp [toContent], by simp [toContent]⟩
    have hrun : (qwen3Route env).Runs s [([], .stop)]
        ((toContent (s.receive [] true .stop)).1.toList ++ []) (toContent (s.receive [] true .stop)).2 :=
      Runs.single hparse hdrain
    have hout : (toContent (s.receive [] true .stop)).1.toList = contentDeltas s.buffer := by
      unfold toContent contentDeltas
      rw [hbuffer]
      split <;> rfl
    rw [hout, List.append_nil] at hrun
    refine ⟨_, _, hrun, reasoningText_contentDeltas _, ?_, ?_⟩
    · rw [contentText_contentDeltas, hlisten.split]
    · rw [anonymousCalls, toolCallDeltas_append, hnocall, toolCallDeltas_contentDeltas,
        invocations_eq_nil env (hasToolTag_marks htag)]
      rfl
  · obtain ⟨t, hrun, _⟩ := hdeliver.call env [] .stop
    have honly := consume_onlyCalls env (p := s.toolState) (by simp [hdeliver.drained, OnlyCalls]) [] .stop
    refine ⟨_, t, hrun, honly.texts.2, ?_, ?_⟩
    · rw [honly.texts.1, List.append_nil, ← hsplit]
      exact List.prefix_append _ _
    · rw [anonymousCalls_append, hstate, ← hsplit,
        invocations_append_of_clear env (hasToolTag_marks hno) hclear, ← deliver_stop env n]
      rw [anonymousCalls, hcalls]
      rfl

end Ended

/-- In the reasoning phase: `said` is out, the end tag has not come yet. -/
structure Thinking (tool : Parser) (said : Str) (s : RouteState) : Prop where
  phase : s.processingPhase = .reasoning
  noEnd : ¬ endTag <:+: said
  clear : stringsOverlap said endTag = false
  open' : ¬ endTag <:+: s.buffer
  toolState : s.toolState = tool
  running : s.terminalContentFinish = .none
  visible : s.contentSpecialTokensVisible = true

section Thinking

variable {tool : Parser} {said reasoning rest more : Str} {s : RouteState}

/-- The buffer is reasoning. -/
def toReasoning (s : RouteState) : Option Delta × RouteState :=
  let (delta, reasoningState) := Qwen3ReasoningParser.parseChunk s.reasoningState s.buffer .none
  (delta, { s with reasoningState := reasoningState, buffer := [] })

theorem dispatch_reasoning (hp : s.processingPhase = .reasoning) (hn : ¬ endTag <:+: s.buffer) :
    (qwen3Route env).dispatch s .none =
      if stringsOverlap s.buffer endTag then (none, s) else toReasoning s := by
  have hcfg : (qwen3Route env).reasoningParser.parsingConfig.endTags = [endTag] := rfl
  have hlook : lookupTags s.buffer [endTag] =
      if [endTag].any (stringsOverlap s.buffer ·) then .foundIncomplete else .notFound :=
    lookupTags_eq (by decide) (by simpa using hn)
  have hindex : Occurrence.indexOf? endTag s.buffer = none :=
    (Occurrence.indexOf?_eq_none_iff (by decide)).mpr fun i hat =>
      hn (Occurrence.infix_iff_at.mpr ⟨i, hat⟩)
  have hfind : findEarliestTag s.buffer [endTag] = none := by
    rw [findEarliestTag_single (by decide), hindex]
    rfl
  have hclose : (qwen3Route env).parseReasoningChunk s .none .reasoning = toReasoning s := by
    have hsplit : splitAtEnd s.buffer [endTag] = (s.buffer, []) := by
      rw [splitAtEnd, hfind]
    show (qwen3Route env).closeReasoningChunk s .none .reasoning = toReasoning s
    simp only [closeReasoningChunk, hcfg, hsplit, hfind, Option.isSome_none, Bool.or_false]
    rw [← hp]
    rfl
  simp only [List.any_cons, List.any_nil, Bool.or_false] at hlook
  by_cases hov : stringsOverlap s.buffer endTag = true
  · rw [if_pos hov] at hlook ⊢
    simp [dispatch, hp, hcfg, hlook]
  · rw [if_neg hov] at hlook ⊢
    simp [dispatch, hp, hcfg, hlook, hclose]

/-- Where the buffer is cut when the end tag is in it. -/
theorem split_at_end (hsaid : ¬ endTag <:+: said) (hclear : stringsOverlap said endTag = false)
    (hreason : ¬ endTag <:+: reasoning) {buffer : Str}
    (hcut : said ++ buffer ++ more = reasoning ++ (endTag ++ rest)) (hin : endTag <:+: buffer) :
    ∃ last remainder, buffer = last ++ (endTag ++ remainder) ∧
      Occurrence.indexOf? endTag buffer = some last.length ∧
      said ++ last = reasoning ∧ remainder ++ more = rest := by
  have hne : endTag ≠ [] := by decide
  obtain ⟨j, hat⟩ := Occurrence.infix_iff_at.mp hin
  obtain ⟨i, _, hindex⟩ := Occurrence.exists_first hne hat
  obtain ⟨hsplit, hlen, hlast⟩ := Occurrence.split_at_first hne hindex
  have hboth : ¬ endTag <:+: said ++ buffer.take i := fun hin' =>
    hlast ((infix_append_of_clear hne hsaid hclear).mp hin')
  have hwhole : said ++ buffer.take i ++ (endTag ++ (buffer.drop (i + endTag.length) ++ more)) =
      reasoning ++ (endTag ++ rest) := by
    rw [← hcut]
    conv => rhs; rw [hsplit]
    simp only [List.append_assoc]
  obtain ⟨hleft, hright⟩ := Occurrence.first_unique hne (by decide) hboth hreason hwhole
  exact ⟨buffer.take i, _, hsplit, by rw [hlen, hindex], hleft, hright⟩

/-- The reasoning up to the end tag is given out, what follows stays in the buffer. -/
def closed (s : RouteState) (last remainder : Str) : Option Delta × RouteState :=
  let (delta, reasoningState) := Qwen3ReasoningParser.parseChunk s.reasoningState (last ++ endTag) .none
  (delta, { s with
    reasoningState := reasoningState
    buffer := remainder
    processingPhase := .unknown
    gemma4ReasoningClosed := true })

theorem dispatch_closed {last remainder : Str} (hp : s.processingPhase = .reasoning)
    (hsplit : s.buffer = last ++ (endTag ++ remainder))
    (hindex : Occurrence.indexOf? endTag s.buffer = some last.length) :
    (qwen3Route env).dispatch s .none = closed s last remainder := by
  have hcfg : (qwen3Route env).reasoningParser.parsingConfig.endTags = [endTag] := rfl
  have hin : endTag <:+: s.buffer := ⟨last, remainder, by rw [hsplit, List.append_assoc]⟩
  have hlook : lookupTags s.buffer [endTag] = .foundComplete := by
    rw [lookupTags_complete (by decide)]
    exact ⟨endTag, by simp, hin⟩
  have hfind : findEarliestTag s.buffer [endTag] = some ⟨last.length, endTag.length⟩ := by
    rw [findEarliestTag_single (by decide), hindex]
    rfl
  have htake : s.buffer.take (last.length + endTag.length) = last ++ endTag := by
    rw [hsplit, ← List.append_assoc, ← List.length_append, List.take_left]
  have hdrop : s.buffer.drop (last.length + endTag.length) = remainder := by
    rw [hsplit, ← List.append_assoc, ← List.length_append, List.drop_left]
  have hcut : splitAtEnd s.buffer [endTag] = (last ++ endTag, remainder) := by
    simp only [splitAtEnd, hfind, htake, hdrop]
  have hclose : (qwen3Route env).parseReasoningChunk s .none .unknown = closed s last remainder := by
    show (qwen3Route env).closeReasoningChunk s .none .unknown = closed s last remainder
    simp only [closeReasoningChunk, hcfg, hcut, hfind, Option.isSome_some, Bool.or_true]
    rfl
  simp [dispatch, hp, hcfg, hlook, hclose]

/-- Before the end tag is complete the text has no start tag, if the reasoning has none. -/
theorem no_start_before_end (hnostart : ¬ startTag <:+: reasoning) {text : Str}
    (hopen : ¬ endTag <:+: text) (hpre : text <+: reasoning ++ (endTag ++ rest)) :
    ¬ startTag <:+: text := by
  have hend : reasoning ++ endTag <+: reasoning ++ (endTag ++ rest) :=
    ⟨rest, List.append_assoc _ _ _⟩
  rcases List.prefix_or_prefix_of_prefix hpre hend with hshort | hlong
  · intro hin
    have hclean : Occurrence.Clean endTag startTag := by decide
    have hboth : startTag <:+: reasoning ++ (endTag ++ []) := by
      simpa using hin.trans hshort.isInfix
    rcases hclean.infix_append.mp hboth with hin' | hin'
    · exact hnostart hin'
    · exact absurd hin' (by decide)
  · exact absurd ((List.suffix_append _ _).isInfix.trans hlong.isInfix) hopen

theorem Thinking.receive (h : Thinking tool said s) (chunk : Str) :
    (s.receive chunk true .none).processingPhase = .reasoning ∧
      (s.receive chunk true .none).terminalContentFinish = .none ∧
      (s.receive chunk true .none).buffer = s.buffer ++ chunk :=
  ⟨h.phase, h.running, rfl⟩

/-- A chunk that does not complete the end tag is held or given out as reasoning. -/
theorem Thinking.call (h : Thinking tool said s) {chunk : Str}
    (hn : ¬ endTag <:+: s.buffer ++ chunk) (hstart : ¬ startTag <:+: s.buffer ++ chunk) :
    ∃ ds t, (qwen3Route env).Runs s [(chunk, .none)] ds t ∧
      Thinking tool (said ++ reasoningText ds) t ∧
      said ++ reasoningText ds ++ t.buffer = said ++ s.buffer ++ chunk ∧
      contentText ds = [] ∧ toolCallDeltas ds = [] := by
  obtain ⟨hphase, hrunning, hbuffer⟩ := h.receive chunk
  have ho : Open (s.receive chunk true .none) := receive_open h.visible chunk .none
  have hbefore : BeforeTool (s.receive chunk true .none).processingPhase := by
    rw [hphase]
    exact ⟨by simp, by simp⟩
  have hdispatch := dispatch_reasoning env hphase (by rwa [hbuffer])
  rw [hbuffer] at hdispatch
  by_cases hov : stringsOverlap (s.buffer ++ chunk) endTag = true
  · rw [if_pos hov] at hdispatch
    refine ⟨[], _, (settles_quiet env ho hbefore hdispatch).runs, ?_, ?_, rfl, rfl⟩
    · refine ⟨hphase, ?_, ?_, by rwa [hbuffer], h.toolState, hrunning, h.visible⟩
      · simpa [reasoningText] using h.noEnd
      · simpa [reasoningText] using h.clear
    · simp [reasoningText, hbuffer]
  · rw [if_neg hov] at hdispatch
    have hdrain : Streaming.Drains (qwen3Route env).drainPendingDelta
        (toReasoning (s.receive chunk true .none)).2 [] (toReasoning (s.receive chunk true .none)).2 :=
      drains_empty env ⟨ho.tools, ho.noHandoff, ho.visible⟩ rfl hbefore
    have hrun : (qwen3Route env).Runs s [(chunk, .none)]
        ((toReasoning (s.receive chunk true .none)).1.toList ++ [])
        (toReasoning (s.receive chunk true .none)).2 := Runs.single hdispatch hdrain
    have hout : (toReasoning (s.receive chunk true .none)).1.toList = reasoningDeltas (s.buffer ++ chunk) :=
      parseChunk_text _ .none hstart hn
    obtain ⟨hcontent, hreason, hcalls⟩ := reasoningDeltas_texts (s.buffer ++ chunk)
    rw [hout, List.append_nil] at hrun
    refine ⟨_, _, hrun, ?_, ?_, hcontent, hcalls⟩
    · rw [hreason]
      refine ⟨hphase, ?_, ?_, by simp [toReasoning, endTag, bytes], h.toolState, hrunning, h.visible⟩
      · rwa [infix_append_of_clear (by decide) h.noEnd h.clear]
      · rw [stringsOverlap_append (by decide) h.clear]
        simpa using hov
    · rw [hreason]
      simp [toReasoning]

/-- The chunk that completes the end tag: the reasoning is out, what follows is drained. -/
theorem Thinking.close (htool : tool.pendingDeltas = []) (h : Thinking tool said s) {chunk : Str}
    (hreason : ¬ endTag <:+: reasoning) (hnostart : ¬ startTag <:+: reasoning)
    (hnothink : ¬ startTag <:+: rest)
    (hcut : said ++ (s.buffer ++ chunk) ++ more = reasoning ++ (endTag ++ rest))
    (hin : endTag <:+: s.buffer ++ chunk) :
    ∃ ds t ch, (qwen3Route env).Runs s [(chunk, .none)] ds t ∧
      said ++ reasoningText ds = reasoning ∧ contentText ds = ch.content ∧
      ch.text ++ more = rest ∧ Ended env tool ch ds t := by
  obtain ⟨last, remainder, hsplit, hindex, hsaid, hrest⟩ :=
    split_at_end h.noEnd h.clear hreason hcut hin
  obtain ⟨hphase, hrunning, hbuffer⟩ := h.receive chunk
  have hdispatch := dispatch_closed env hphase hsplit hindex
  have hlast : ¬ startTag <:+: last := fun hin' =>
    hnostart (hsaid ▸ hin'.trans (List.suffix_append _ _).isInfix)
  have hout : (closed (s.receive chunk true .none) last remainder).1.toList = reasoningDeltas last :=
    parseChunk_closed _ .none hlast
  obtain ⟨hcontent, hreason', hcalls⟩ := reasoningDeltas_texts last
  let u := (closed (s.receive chunk true .none) last remainder).2
  have ho : Open u := ⟨rfl, rfl, h.visible⟩
  have hrun {ds : List Delta} {t : RouteState}
      (hdrain : Streaming.Drains (qwen3Route env).drainPendingDelta u ds t) :
      (qwen3Route env).Runs s [(chunk, .none)] (reasoningDeltas last ++ ds) t := by
    rw [← hout]
    exact Runs.single hdispatch hdrain
  have hlisten : Listening tool (Channel.receive {} remainder) u :=
    ⟨by simp [Channel.receive, u, closed], rfl, fun _ => rfl, by change ¬ HasToolTag []; decide,
      by change ∀ tag ∈ _, stringsOverlap [] tag = false; decide, h.toolState, hrunning, h.visible⟩
  by_cases hempty : remainder = []
  · subst hempty
    refine ⟨_, u, {}, hrun (drains_empty env ho rfl ⟨by simp [u, closed], by simp [u, closed]⟩),
      ?_, ?_, by simpa using hrest, Or.inl ⟨by decide, hlisten, ?_⟩⟩
    · rw [List.append_nil, hreason', hsaid]
    · rw [List.append_nil, hcontent]
    · rw [List.append_nil, hcalls]
  · have hthink : Thoughtless (Channel.receive {} remainder) := by
      refine Or.inr fun hin' => hnothink ?_
      rw [← hrest]
      exact (by simpa [Channel.receive] using hin' : startTag <:+: remainder).trans
        (List.prefix_append _ _).isInfix
    obtain ⟨ds, t, hdrain, hcontent', hreason'', hend⟩ := hlisten.drains htool ho hthink hempty
    refine ⟨_, t, _, hrun hdrain, ?_, ?_, ?_, hend.prepend hcalls⟩
    · rw [reasoningText_append, hreason', hreason'', List.append_nil, hsaid]
    · rw [contentText_append, hcontent]
      exact hcontent'
    · have htext : (Channel.receive {} remainder).settle.text = remainder := by
        unfold Channel.settle
        split <;> simp [Channel.receive]
      rw [htext, hrest]

/-- The chunks of reasoning, end tag and what follows. -/
theorem Thinking.runs (htool : tool.pendingDeltas = []) (h : Thinking tool said s)
    (hreason : ¬ endTag <:+: reasoning) (hnostart : ¬ startTag <:+: reasoning)
    (hnothink : ¬ startTag <:+: rest) (chunks : List Str)
    (hcut : said ++ s.buffer ++ chunks.flatten = reasoning ++ (endTag ++ rest)) :
    ∃ ds t ch, (qwen3Route env).Runs s (chunks.map fun chunk => (chunk, .none)) ds t ∧
      said ++ reasoningText ds = reasoning ∧ contentText ds = ch.content ∧ ch.text = rest ∧
      Ended env tool ch ds t := by
  induction chunks generalizing said s with
  | nil =>
    exfalso
    have hin : endTag <:+: said ++ s.buffer := by
      rw [List.flatten_nil, List.append_nil] at hcut
      exact ⟨reasoning, rest, by rw [hcut, List.append_assoc]⟩
    exact h.open' ((infix_append_of_clear (by decide) h.noEnd h.clear).mp hin)
  | cons chunk chunks ih =>
    have hcut' : said ++ (s.buffer ++ chunk) ++ chunks.flatten = reasoning ++ (endTag ++ rest) := by
      rw [← hcut]
      simp
    by_cases hin : endTag <:+: s.buffer ++ chunk
    · obtain ⟨ds, u, ch, hcall, hsaid, hcontent, htext, hend⟩ :=
        h.close env htool hreason hnostart hnothink hcut' hin
      obtain ⟨es, t, hrun, hcontent', hreason', hend'⟩ := hend.runs htool chunks
        (Or.inr (by rwa [htext]))
      refine ⟨ds ++ es, t, _, hcall.append hrun, ?_, ?_, ?_, hend'⟩
      · rw [reasoningText_append, hreason', List.append_nil, hsaid]
      · rw [contentText_append, hcontent, hcontent']
      · rw [Channel.foldl_text, htext]
    · have hstart : ¬ startTag <:+: s.buffer ++ chunk := by
        have hopen : ¬ endTag <:+: said ++ (s.buffer ++ chunk) := by
          rwa [infix_append_of_clear (by decide) h.noEnd h.clear]
        have hno := no_start_before_end hnostart hopen ⟨_, hcut'⟩
        exact fun hin' => hno (hin'.trans (List.suffix_append _ _).isInfix)
      obtain ⟨ds, u, hcall, hthinking, hsplit, hcontent, hcalls⟩ := h.call env hin hstart
      obtain ⟨es, t, ch, hrun, hsaid, hcontent', htext, hend⟩ := ih hthinking (by
        rw [hsplit, ← hcut]
        simp)
      refine ⟨ds ++ es, t, ch, hcall.append hrun, ?_, ?_, htext, hend.prepend hcalls⟩
      · rw [reasoningText_append, ← List.append_assoc, hsaid]
      · rw [contentText_append, hcontent, List.nil_append, hcontent']

end Thinking

/-- The tool parser on its own, drained after each call. -/
def toolParserInput (p : Parser) (input : Input) : Option Delta × Parser :=
  p.parseChunk env input.1 input.2

theorem takeQueuedDelta_drains (p : Parser) :
    Streaming.Drains Parser.drainPendingDelta p p.pendingDeltas { p with pendingDeltas := [] } := by
  induction hq : p.pendingDeltas generalizing p with
  | nil =>
    refine .done ?_
    simp [Parser.drainPendingDelta, Parser.takeQueuedDelta, hq]
  | cons d ds ih =>
    have hstep : p.drainPendingDelta = (some d, { p with pendingDeltas := ds }) := by
      simp [Parser.drainPendingDelta, Parser.takeQueuedDelta, hq]
    exact .more hstep (ih { p with pendingDeltas := ds } rfl)

theorem toolParser_call (p : Parser) (input : Input) :
    Streaming.Feeds (toolParserInput env) Parser.drainPendingDelta p [input]
      (p.consume env input.1 input.2).pendingDeltas (delivered env p input.1 input.2) := by
  have hparse : toolParserInput env p input =
      ((p.consume env input.1 input.2).pendingDeltas.head?,
        { p.consume env input.1 input.2 with
          pendingDeltas := (p.consume env input.1 input.2).pendingDeltas.tail }) := rfl
  have hall := Streaming.Feeds.single hparse (takeQueuedDelta_drains _)
  have hqueue : (p.consume env input.1 input.2).pendingDeltas.head?.toList ++
      (p.consume env input.1 input.2).pendingDeltas.tail =
        (p.consume env input.1 input.2).pendingDeltas := by
    cases (p.consume env input.1 input.2).pendingDeltas <;> rfl
  rwa [hqueue] at hall

theorem toolParser_chunks (p : Parser) (chunks : List Str) :
    Streaming.Feeds (toolParserInput env) Parser.drainPendingDelta p
      (chunks.map fun chunk => (chunk, .none)) (deliver env p chunks).1 (deliver env p chunks).2 := by
  induction chunks generalizing p with
  | nil => exact .nil
  | cons chunk chunks ih =>
    exact (toolParser_call env p (chunk, .none)).append (ih (delivered env p chunk .none))

/-- The tool parser alone publishes the calls of the text it is given. -/
theorem toolParser_generation (n : Nat) (chunks : List Str) :
    ∃ ds q, Streaming.Feeds (toolParserInput env) Parser.drainPendingDelta
        { streamParser := Impl.fresh n } (generation chunks) ds q ∧
      anonymousCalls ds = announce env (-1) (invocations env chunks.flatten) := by
  have hchunks := toolParser_chunks env { streamParser := Impl.fresh n } chunks
  have hstop := toolParser_call env (deliver env { streamParser := Impl.fresh n } chunks).2 ([], .stop)
  refine ⟨_, _, hchunks.append hstop, ?_⟩
  rw [anonymousCalls_append]
  exact deliver_stop env n chunks

/-- With an open `<think>` in the prompt: the text before `</think>` is the reasoning, none
of the tag is given out, and the calls are those of the text behind it. -/
theorem reasoning_before_end (n m : Nat) (reasoning rest : Str) (hreason : ¬ endTag <:+: reasoning)
    (hnostart : ¬ startTag <:+: reasoning) (hnothink : ¬ startTag <:+: rest) (chunks alone : List Str)
    (hcut : chunks.flatten = reasoning ++ (endTag ++ rest)) (halone : alone.flatten = rest) :
    ∃ ds t es q,
      (qwen3Route env).Runs ((qwen3Route env).setImplicitReasoningStart (initial n) true)
        (generation chunks) ds t ∧
      Streaming.Feeds (toolParserInput env) Parser.drainPendingDelta
        { streamParser := Impl.fresh m } (generation alone) es q ∧
      reasoningText ds = reasoning ∧ contentText ds <+: rest ∧
      anonymousCalls ds = anonymousCalls es := by
  have hthinking : Thinking (initial n).toolState []
      ((qwen3Route env).setImplicitReasoningStart (initial n) true) :=
    ⟨rfl, by decide, by decide, by change ¬ endTag <:+: []; decide, rfl, rfl, rfl⟩
  obtain ⟨ds, s, ch, hrun, hsaid, hcontent, htext, hend⟩ := hthinking.runs env rfl hreason
    hnostart hnothink chunks hcut
  obtain ⟨es, t, hstop, hreason', hpre, hcalls⟩ := hend.stop (Or.inr (by rwa [htext]))
  obtain ⟨fs, q, halone', hcalls'⟩ := toolParser_generation env m alone
  refine ⟨ds ++ es, t, fs, q, hrun.append hstop, halone', ?_, ?_, ?_⟩
  · rw [reasoningText_append, hreason', List.append_nil]
    exact hsaid
  · rw [contentText_append, hcontent, ← htext]
    exact hpre
  · rw [hcalls, hcalls', htext, halone]

/-- Reasoning that quotes a call, cut within the end tag. -/
theorem reasoning_before_end_quoting :
    ∃ ds t es q,
      (qwen3Route bareEnvironment).Runs
        ((qwen3Route bareEnvironment).setImplicitReasoningStart (initial 0) true)
        (generation [bytes "I could <tool_call></th", bytes "ink>Hello"]) ds t ∧
      Streaming.Feeds (toolParserInput bareEnvironment) Parser.drainPendingDelta
        { streamParser := Impl.fresh 0 } (generation [bytes "Hello"]) es q ∧
      reasoningText ds = bytes "I could <tool_call>" ∧ contentText ds <+: bytes "Hello" ∧
      anonymousCalls ds = anonymousCalls es :=
  reasoning_before_end bareEnvironment 0 0 (bytes "I could <tool_call>") (bytes "Hello")
    (by decide) (by decide) (by decide) [bytes "I could <tool_call></th", bytes "ink>Hello"]
    [bytes "Hello"] (by decide) (by decide)

end Qwen3Route

end ModelServer
