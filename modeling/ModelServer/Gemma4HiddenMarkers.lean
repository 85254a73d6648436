import ModelServer.Erasure
import ModelServer.Gemma4Route

/-! Content of the Gemma4 route where no tools are available and special tokens stay hidden. -/

namespace ModelServer.Gemma4Route

open Gemma4ToolParser OutputParser Erasure

def tokensToHide : List Str := [TOOL_CALL_START_TAG, TOOL_CALL_END_TAG, TOOL_ARGS_STRING_INDICATOR]

def stringsToErase : List Str :=
  [TURN_END_TAG, TOOL_RESPONSE_START_TAG, bytes "<|channel>thought\n", bytes "<channel|>"]

theorem eraseAll_eq {tag : Str} (ht : tag ≠ []) (content : Str) : eraseAll tag content = erase tag content := by
  have hbudget (budget : Nat) (content : Str) (hb : content.length ≤ budget) :
      eraseTag tag budget content = erase tag content := by
    induction budget generalizing content with
    | zero =>
      rw [List.length_eq_zero_iff.mp (Nat.le_zero.mp hb), erase_nil]
      rfl
    | succ budget ih =>
      rw [eraseTag]
      split
      next hnone =>
        refine (erase_of_none fun hin => ?_).symm
        obtain ⟨i, hi⟩ := Occurrence.infix_iff_at.mp hin
        exact (Occurrence.indexOf?_eq_none_iff ht).mp hnone i hi
      next pos hpos =>
        obtain ⟨hat, hfirst⟩ := (Occurrence.indexOf?_eq_some_iff ht).mp hpos
        have hlen := List.length_pos_iff.mpr ht
        rw [erase_first ht hat hfirst, ih _ (by simp only [List.length_drop]; omega)]
  exact hbudget content.length content le_rfl

theorem foldl_eraseAll {tags : List Str} (ht : ∀ tag ∈ tags, tag ≠ []) (content : Str) :
    tags.foldl (fun content tag => eraseAll tag content) content = eraseEach tags content := by
  induction tags generalizing content with
  | nil => rfl
  | cons tag tags ih =>
    simp only [eraseEach, List.foldl_cons] at ih ⊢
    rw [eraseAll_eq (ht tag (List.mem_cons_self ..)), ih fun other ho => ht other (List.mem_cons_of_mem _ ho)]

/-- All the markers, in the order in which they are erased. -/
def markers : List Str := tokensToHide ++ stringsToErase

theorem markers_open : Marks (char '<') markers where
  opened mark hm := by
    have hall : ∀ mark ∈ markers, mark.head? = some (char '<') ∧ char '<' ∉ mark.tail := by decide
    obtain ⟨hhead, htail⟩ := hall mark hm
    cases mark with
    | nil => cases hhead
    | cons c body =>
      cases Option.some.inj hhead
      exact ⟨body, rfl, htail⟩
  prefixFree := by decide

/-- The markers of a list erased one after the other. -/
def eraseTags (tags : List Str) (text : Str) : Str :=
  tags.foldl (fun content tag => eraseAll tag content) text

/-- What content is made of a text. -/
def visibleText (text : Str) : Str := eraseTags markers text

theorem visibleText_eq (text : Str) : visibleText text = eraseEach markers text :=
  foldl_eraseAll (by decide) text

/-- A text that may still become a marker or a channel stays in the buffer, unless it
holds a marker of the content parser. -/
def heldBack (phase : ProcessingPhase) (text : Str) : Bool :=
  let content := eraseTags tokensToHide text
  (decide (phase = .unknown) && stringsOverlap text Gemma4ReasoningParser.startTag) ||
    tokensToHide.any (stringsOverlap content) ||
    (!stringsToErase.any (fun tag => (find content tag 0).isSome) &&
      stringsToErase.any (stringsOverlap content))

variable (env : Environment) {s : RouteState}

/-- The flags while chunks of hidden content arrive. -/
structure Hidden (s : RouteState) : Prop where
  noTools : s.toolsEnabledForChunk = false
  noHandoff : s.pendingGemma4ToolHandoff = false
  hidden : s.contentSpecialTokensVisible = false
  notClosed : s.gemma4ReasoningClosed = false
  phase : s.processingPhase = .unknown ∨ s.processingPhase = .content

/-- No channel begins in the buffer, and at the start no bare header either. -/
structure Plain (s : RouteState) : Prop where
  noChannel : ¬ Gemma4ReasoningParser.startTag <:+: s.buffer
  noHeader (h : s.processingPhase = .unknown) (p : Str) (hp : p ≠ [])
    (hpre : p <+: Gemma4ReasoningParser.preambleTag) : ¬ p <+: s.buffer

section Step

/-- The buffer is given out as content. -/
def giveOut (s : RouteState) : Option Delta × RouteState :=
  s.release true (some (.content (visibleText s.buffer)), ())

theorem eraseTags_of_none {tags : List Str} {text : Str} (ht : ∀ tag ∈ tags, tag ≠ [])
    (hn : ∀ tag ∈ tags, find text tag 0 = none) : eraseTags tags text = text := by
  induction tags with
  | nil => rfl
  | cons tag tags ih =>
    have hne := ht tag (List.mem_cons_self ..)
    have hno : ¬ tag <:+: text := by
      intro hin
      obtain ⟨i, hi⟩ := Occurrence.infix_iff_at.mp hin
      exact (find_eq_none_iff hne).mp (hn tag (List.mem_cons_self ..)) i (Nat.zero_le i) hi
    have hstep : eraseAll tag text = text := by rw [eraseAll_eq hne, erase_of_none hno]
    rw [eraseTags, List.foldl_cons, hstep]
    exact ih (fun other ho => ht other (List.mem_cons_of_mem _ ho))
      fun other ho => hn other (List.mem_cons_of_mem _ ho)

theorem defaultContent_parseChunk (content : Str) (finishReason : FinishReason) :
    (DefaultContentParser stringsToErase).parseChunk () content finishReason =
      if finishReason = .none ∧ (!stringsToErase.any (fun tag => (find content tag 0).isSome) &&
          stringsToErase.any (stringsOverlap content)) = true then (none, ())
      else (some (.content (eraseTags stringsToErase content)), ()) := by
  simp only [DefaultContentParser]
  cases hany : stringsToErase.any fun tag => (find content tag 0).isSome with
  | true => simp [eraseTags]
  | false =>
    have hnone : ∀ tag ∈ stringsToErase, find content tag 0 = none := by
      intro tag hm
      simpa using List.any_eq_false.mp hany tag hm
    rw [eraseTags_of_none (by decide) hnone]
    simp

theorem parseContentChunk_hidden (h : Hidden s) (finishReason : FinishReason)
    (hterm : s.terminalContentFinish = .none ↔ finishReason = .none) :
    (gemma4Route env).parseContentChunk s finishReason =
      if finishReason = .none ∧ heldBack .content s.buffer = true then (none, s) else giveOut s := by
  have hreason : (if s.terminalContentFinish ≠ .none then s.terminalContentFinish else finishReason) =
      .none ↔ finishReason = .none := by
    split
    next hne => exact hterm
    next hnone => rfl
  have hfilter (reason : FinishReason) : (gemma4Route env).filterContent s reason =
      if reason = .none ∧ tokensToHide.any (stringsOverlap (eraseTags tokensToHide s.buffer)) = true
      then none else some (eraseTags tokensToHide s.buffer) := by
    simp [filterContent, h.hidden, h.noTools, gemma4Route, tokensToHide, eraseTags]
  have hparser : (gemma4Route env).contentParser = DefaultContentParser stringsToErase := rfl
  have hvisible : eraseTags stringsToErase (eraseTags tokensToHide s.buffer) = visibleText s.buffer :=
    List.foldl_append.symm
  rw [parseContentChunk_eq]
  generalize (if s.terminalContentFinish ≠ .none then s.terminalContentFinish else finishReason) = reason
    at hreason ⊢
  dsimp only
  rw [hfilter, hparser]
  by_cases hrun : reason = .none
  · by_cases hhide : tokensToHide.any (stringsOverlap (eraseTags tokensToHide s.buffer)) = true
    · rw [if_pos ⟨hrun, hhide⟩, if_pos ⟨hreason.mp hrun, by simp [heldBack, hhide]⟩]
    · rw [if_neg fun hc => hhide hc.2]
      dsimp only
      rw [defaultContent_parseChunk, hvisible]
      have hheld : heldBack .content s.buffer =
          (!stringsToErase.any (fun tag => (find (eraseTags tokensToHide s.buffer) tag 0).isSome) &&
            stringsToErase.any (stringsOverlap (eraseTags tokensToHide s.buffer))) := by
        simp [heldBack, hhide]
      simp only [hheld, hrun, hreason.mp hrun, true_and]
      split
      · rfl
      · rfl
  · rw [if_neg fun hc => hrun hc.1, if_neg fun hc => hrun (hreason.mpr hc.1)]
    dsimp only
    rw [defaultContent_parseChunk, hvisible, if_neg fun hc => hrun hc.1]
    rfl

/-- In hidden content nothing starts a thought, though a text may still become a channel. -/
theorem reasoningStart_hidden (h : Hidden s) (hp : Plain s) (hphase : s.processingPhase = .unknown) :
    (gemma4Route env).reasoningStartStatus s =
      if stringsOverlap s.buffer Gemma4ReasoningParser.startTag then .foundIncomplete else .notFound := by
  have hlook : lookupTags s.buffer [Gemma4ReasoningParser.startTag] =
      if [Gemma4ReasoningParser.startTag].any (stringsOverlap s.buffer ·) then .foundIncomplete
      else .notFound :=
    lookupTags_eq (by decide) (by simpa using hp.noChannel)
  have hpreamble : (gemma4Route env).lookupReasoningPreamble s = .notFound := by
    have htag : Gemma4ReasoningParser.preambleTag ≠ [] := by decide
    have hcfg : (gemma4Route env).reasoningParser.parsingConfig.preambleStartTags =
        [Gemma4ReasoningParser.preambleTag] := rfl
    have hgemma : (gemma4Route env).gemma4ToolHandoff = true := rfl
    have hcomplete : ¬ Gemma4ReasoningParser.preambleTag <+: s.buffer :=
      hp.noHeader hphase _ htag List.prefix_rfl
    by_cases hb : s.buffer = []
    · simp [lookupReasoningPreamble, hgemma, hb]
    · have hpartial : ¬ s.buffer <+: Gemma4ReasoningParser.preambleTag := fun hpre =>
        hp.noHeader hphase _ hb hpre List.prefix_rfl
      simp [lookupReasoningPreamble, hcfg, hgemma, h.notClosed, hb, hcomplete, hpartial]
  have hstream : (gemma4Route env).reasoningParserSupportsStreaming = true := rfl
  have hcfg : (gemma4Route env).reasoningParser.parsingConfig.startTags =
      [Gemma4ReasoningParser.startTag] := rfl
  rw [reasoningStartStatus, hstream, hcfg, hlook]
  by_cases hov : stringsOverlap s.buffer Gemma4ReasoningParser.startTag = true
  · simp [hov]
  · simp [hov, hpreamble]

/-- A step holds the buffer back while more may come, or gives it out. -/
theorem dispatch_hidden (h : Hidden s) (hp : Plain s) (finishReason : FinishReason)
    (hterm : s.terminalContentFinish = .none ↔ finishReason = .none) :
    (gemma4Route env).dispatch s finishReason =
      if finishReason = .none ∧ heldBack s.processingPhase s.buffer = true then (none, s)
      else giveOut s := by
  have hcontent := parseContentChunk_hidden env h finishReason hterm
  rcases h.phase with hphase | hphase
  · have happly : ((gemma4Route env).toolParserSupportsStreaming && s.toolsEnabledForChunk) = false := by
      rw [h.noTools, Bool.and_false]
    have hstream : (gemma4Route env).reasoningParserSupportsStreaming = true := rfl
    have hreason := reasoningStart_hidden env h hp hphase
    have hheld : heldBack s.processingPhase s.buffer =
        (stringsOverlap s.buffer Gemma4ReasoningParser.startTag || heldBack .content s.buffer) := by
      simp [heldBack, hphase, Bool.or_assoc]
    rw [dispatch, hphase]
    dsimp only
    unfold parseUnknown
    rw [happly, hstream, hreason, hcontent]
    rw [hphase] at hheld
    rw [hheld]
    by_cases hov : stringsOverlap s.buffer Gemma4ReasoningParser.startTag = true
    · by_cases hrun : finishReason = .none
      · simp [hov, hrun, hterm.mpr hrun]
      · have hne : s.terminalContentFinish ≠ .none := fun hn => hrun (hterm.mp hn)
        simp [hov, hrun, hne]
    · simp [hov]
  · have hparse : (gemma4Route env).parseContent s finishReason =
        (gemma4Route env).parseContentChunk s finishReason := by
      simp [parseContent, h.noTools]
    rw [dispatch, hphase, hparse]
    exact hcontent

end Step

section Run

/-- The text as it is divided, the finish coming with its last part. -/
def divided (chunks : List Str) (last : Str) (finishReason : FinishReason) : List Input :=
  chunks.map (fun chunk => (chunk, FinishReason.none)) ++ [(last, finishReason)]

/-- Without tools, the route gives these deltas on these inputs, drained after each. -/
abbrev RunsHidden (s : RouteState) (inputs : List Input) (ds : List Delta) (t : RouteState) : Prop :=
  Streaming.Feeds ((gemma4Route env).parseInput false) (gemma4Route env).drainPendingDelta s inputs ds t

/-- What is given out of a buffer and the chunks to come. -/
def emitted (last : Str) : ProcessingPhase → Str → List Str → Str
  | _, buffer, [] => visibleText (buffer ++ last)
  | phase, buffer, chunk :: chunks =>
    if heldBack phase (buffer ++ chunk) then emitted last phase (buffer ++ chunk) chunks
    else visibleText (buffer ++ chunk) ++ emitted last .content [] chunks

theorem giveOut_content (s : RouteState) : contentText (giveOut s).1.toList = visibleText s.buffer := by
  simp only [giveOut, State.release]
  by_cases hempty : visibleText s.buffer = []
  · simp [hempty, contentText]
  · simp [hempty, contentText]

theorem Hidden.giveOut (h : Hidden s) : Hidden (giveOut s).2 :=
  ⟨h.noTools, h.noHandoff, h.hidden, h.notClosed, Or.inr rfl⟩

theorem Hidden.receive (h : Hidden s) (chunk : Str) (finishReason : FinishReason) :
    Hidden (s.receive chunk false finishReason) :=
  ⟨rfl, rfl, h.hidden, h.notClosed, h.phase⟩

theorem Hidden.drains_empty (h : Hidden s) (hb : s.buffer = []) :
    Streaming.Drains (gemma4Route env).drainPendingDelta s [] s := by
  have hphase : s.processingPhase ≠ .toolCallsProcessingTool ∧
      s.processingPhase ≠ .toolCallsWaitingForTool := by
    rcases h.phase with hphase | hphase <;> simp [hphase]
  refine .done ?_
  simp [drainPendingDelta, drainCache, h.noHandoff, hphase.1, hphase.2, hb]

/-- Held text stays held. -/
theorem Hidden.drains_held (h : Hidden s) (hp : Plain s) (hrun : s.terminalContentFinish = .none)
    (hheld : heldBack s.processingPhase s.buffer = true) :
    Streaming.Drains (gemma4Route env).drainPendingDelta s [] s := by
  by_cases hb : s.buffer = []
  · exact h.drains_empty env hb
  · have hphase : s.processingPhase ≠ .toolCallsProcessingTool ∧
        s.processingPhase ≠ .toolCallsWaitingForTool := by
      rcases h.phase with hphase | hphase <;> simp [hphase]
    have hsame : s.receive [] false .none = s := by
      obtain ⟨toolState, reasoningState, contentState, phase, buffer, implicit, pending, tools⟩ := s
      have htools := h.noTools
      have hpending := h.noHandoff
      simp only at htools hpending
      simp [State.receive, htools, hpending]
    have hstep : (gemma4Route env).dispatch s .none = (none, s) := by
      rw [dispatch_hidden env h hp .none (by simp [hrun]), if_pos ⟨rfl, hheld⟩]
    refine .done ?_
    simp [drainPendingDelta, drainCache, h.noHandoff, h.noTools, hphase.1, hphase.2, hb,
      OutputParser.parseChunk, hsame, hstep]

/-- The text given out of a run is that of the blocks between its releases. -/
theorem runsHidden_emits {finishReason : FinishReason} (hf : finishReason ≠ .none) (chunks : List Str)
    (last : Str) (h : Hidden s) (hrun : s.terminalContentFinish = .none)
    (hchannel : ¬ Gemma4ReasoningParser.startTag <:+: s.buffer ++ (chunks.flatten ++ last))
    (hheader : s.processingPhase = .unknown → ∀ p : Str, p ≠ [] →
      p <+: Gemma4ReasoningParser.preambleTag → ¬ p <+: s.buffer ++ (chunks.flatten ++ last)) :
    ∃ ds t, RunsHidden env s (divided chunks last finishReason) ds t ∧
      contentText ds = emitted last s.processingPhase s.buffer chunks := by
  induction chunks generalizing s with
  | nil =>
    have hr := h.receive last finishReason
    have hp : Plain (s.receive last false finishReason) := ⟨hchannel, hheader⟩
    have hterm : (s.receive last false finishReason).terminalContentFinish = .none ↔
        finishReason = .none := by simp [State.receive, hf]
    have hstep : (gemma4Route env).parseInput false s (last, finishReason) =
        ((giveOut (s.receive last false finishReason)).1, (giveOut (s.receive last false finishReason)).2) := by
      rw [parseInput, OutputParser.parseChunk, dispatch_hidden env hr hp finishReason hterm,
        if_neg fun hc => hf hc.1]
    have hdrain := hr.giveOut.drains_empty env rfl
    refine ⟨_, _, Streaming.Feeds.single hstep hdrain, ?_⟩
    rw [List.append_nil, giveOut_content]
    rfl
  | cons chunk chunks ih =>
    have hr := h.receive chunk .none
    have hassoc : s.buffer ++ ((chunk :: chunks).flatten ++ last) =
        (s.receive chunk false .none).buffer ++ (chunks.flatten ++ last) := by
      simp [State.receive]
    rw [hassoc] at hchannel hheader
    have hpre : (s.receive chunk false .none).buffer <+:
        (s.receive chunk false .none).buffer ++ (chunks.flatten ++ last) := List.prefix_append ..
    have hp : Plain (s.receive chunk false .none) :=
      ⟨fun hin => hchannel (hin.trans hpre.isInfix),
        fun hu p hne hp hin => hheader hu p hne hp (hin.trans hpre)⟩
    have hrun' : (s.receive chunk false .none).terminalContentFinish = .none := by
      simp [State.receive, hrun]
    have hstep : (gemma4Route env).parseInput false s (chunk, .none) =
        if heldBack s.processingPhase (s.buffer ++ chunk) = true then (none, s.receive chunk false .none)
        else giveOut (s.receive chunk false .none) := by
      rw [parseInput, OutputParser.parseChunk, dispatch_hidden env hr hp .none (by simp [hrun'])]
      simp [State.receive]
    by_cases hheld : heldBack s.processingPhase (s.buffer ++ chunk) = true
    · rw [if_pos hheld] at hstep
      obtain ⟨ds, t, hruns, hcontent⟩ := ih hr hrun' hchannel hheader
      refine ⟨_, t, Streaming.Feeds.cons hstep (hr.drains_held env hp hrun' hheld) hruns, ?_⟩
      rw [emitted, if_pos hheld]
      exact hcontent
    · rw [if_neg hheld] at hstep
      have hsuf : chunks.flatten ++ last <:+
          (s.receive chunk false .none).buffer ++ (chunks.flatten ++ last) := List.suffix_append ..
      obtain ⟨ds, t, hruns, hcontent⟩ := ih hr.giveOut hrun' (fun hin => hchannel (hin.trans hsuf.isInfix))
        (by intro hu; cases hu)
      have hgive : (gemma4Route env).parseInput false s (chunk, .none) =
          ((giveOut (s.receive chunk false .none)).1, (giveOut (s.receive chunk false .none)).2) :=
        hstep.trans (Prod.eta (giveOut (s.receive chunk false .none))).symm
      refine ⟨_, t, Streaming.Feeds.cons hgive (hr.giveOut.drains_empty env rfl) hruns, ?_⟩
      rw [emitted, if_neg hheld, List.append_nil, contentText_append, giveOut_content, hcontent]
      rfl

end Run

section Seams

/-- Wherever text is given out, no marker lies across the cut, once what is erased before it
is gone from both sides. -/
def Seams (last : Str) : ProcessingPhase → Str → List Str → Prop
  | _, _, [] => True
  | phase, buffer, chunk :: chunks =>
    if heldBack phase (buffer ++ chunk) then Seams last phase (buffer ++ chunk) chunks
    else Seamless markers (buffer ++ chunk) (chunks.flatten ++ last) ∧ Seams last .content [] chunks

theorem length_visibleText_le (last : Str) (phase : ProcessingPhase) (buffer : Str) (chunks : List Str) :
    (visibleText (buffer ++ (chunks.flatten ++ last))).length ≤ (emitted last phase buffer chunks).length := by
  induction chunks generalizing phase buffer with
  | nil => exact le_rfl
  | cons chunk chunks ih =>
    rw [emitted, List.flatten_cons, List.append_assoc, ← List.append_assoc]
    split
    · exact ih phase (buffer ++ chunk)
    · have hrest := ih .content []
      have hcut := length_eraseEach_append markers_open (buffer ++ chunk) (chunks.flatten ++ last)
      rw [List.nil_append] at hrest
      rw [← visibleText_eq, ← visibleText_eq, ← visibleText_eq] at hcut
      simp only [List.length_append] at hcut hrest ⊢
      omega

/-- The blocks give what the whole gives exactly where no cut goes through a marker. -/
theorem emitted_iff_seams (last : Str) (phase : ProcessingPhase) (buffer : Str) (chunks : List Str) :
    emitted last phase buffer chunks = visibleText (buffer ++ (chunks.flatten ++ last)) ↔
      Seams last phase buffer chunks := by
  induction chunks generalizing phase buffer with
  | nil => simp [emitted, Seams]
  | cons chunk chunks ih =>
    rw [emitted, Seams, List.flatten_cons, List.append_assoc, ← List.append_assoc]
    split
    · exact ih phase (buffer ++ chunk)
    · have hrest := ih .content []
      rw [List.nil_append] at hrest
      by_cases hcut : Seamless markers (buffer ++ chunk) (chunks.flatten ++ last)
      · have happend : visibleText ((buffer ++ chunk) ++ (chunks.flatten ++ last)) =
            visibleText (buffer ++ chunk) ++ visibleText (chunks.flatten ++ last) := by
          rw [visibleText_eq, visibleText_eq, visibleText_eq]
          exact eraseEach_append markers_open hcut
        rw [happend, List.append_cancel_left_eq, hrest]
        exact (and_iff_right hcut).symm
      · have hless := length_eraseEach_of_straddled markers_open (fun _ hm => hm) hcut
        have hle := length_visibleText_le last .content [] chunks
        rw [List.nil_append] at hle
        rw [← visibleText_eq, ← visibleText_eq, ← visibleText_eq] at hless
        refine ⟨fun he => ?_, fun hs => absurd hs.1 hcut⟩
        have hlen := congrArg List.length he
        simp only [List.length_append] at hlen hless
        omega

end Seams

section Claim

/-- A new route whose special tokens are hidden from content. -/
def hiddenInitial (n : Nat) : RouteState := { initial n with contentSpecialTokensVisible := false }

theorem hiddenInitial_hidden (n : Nat) : Hidden (hiddenInitial n) :=
  ⟨rfl, rfl, rfl, rfl, Or.inl rfl⟩

/-- A text in pieces gives the content it gives whole exactly where no release goes through a
marker: through one of those that the content parser erases, as every other is held back. -/
theorem pieces_as_whole (n : Nat) {finishReason : FinishReason} (hf : finishReason ≠ .none)
    (chunks : List Str) (last : Str)
    (hchannel : ¬ Gemma4ReasoningParser.startTag <:+: chunks.flatten ++ last)
    (hheader : ∀ p : Str, p ≠ [] → p <+: Gemma4ReasoningParser.preambleTag →
      ¬ p <+: chunks.flatten ++ last) :
    ∃ ds t es u, RunsHidden env (hiddenInitial n) (divided chunks last finishReason) ds t ∧
      RunsHidden env (hiddenInitial n) [(chunks.flatten ++ last, finishReason)] es u ∧
      (contentText ds = contentText es ↔ Seams last .unknown [] chunks) := by
  obtain ⟨ds, t, hruns, hcontent⟩ := runsHidden_emits env hf chunks last (hiddenInitial_hidden n) rfl
    hchannel fun _ => hheader
  obtain ⟨es, u, hwhole, htext⟩ := runsHidden_emits env hf [] (chunks.flatten ++ last)
    (hiddenInitial_hidden n) rfl hchannel fun _ => hheader
  refine ⟨ds, t, es, u, hruns, hwhole, ?_⟩
  rw [hcontent, htext]
  exact emitted_iff_seams last .unknown [] chunks

/-- No registry, and no tools. -/
def bareEnvironment : Environment where
  rapidJson := ⟨fun _ => none, fun _ => none, fun _ => bytes "\x7b\x7d"⟩
  randomIds := .growing
  allowedToolNames := []

theorem no_header_of_turn {p : Str} (hp : p ≠ []) (hpre : p <+: Gemma4ReasoningParser.preambleTag)
    {text : Str} (hhead : text.head? = some (char '<')) : ¬ p <+: text := by
  intro hin
  obtain ⟨c, p, rfl⟩ := List.exists_cons_of_ne_nil hp
  obtain ⟨tail, rfl⟩ := hin
  have ht := (List.cons_prefix_cons.mp hpre).1
  cases Option.some.inj hhead
  exact absurd ht (by decide)

theorem pieces_as_whole_turns :
    ∃ ds t es u, RunsHidden bareEnvironment (hiddenInitial 0)
        (divided [bytes "<turn|><tu"] (bytes "rn|>") .stop) ds t ∧
      RunsHidden bareEnvironment (hiddenInitial 0) [(bytes "<turn|><turn|>", .stop)] es u ∧
      (contentText ds = contentText es ↔ Seams (bytes "rn|>") .unknown [] [bytes "<turn|><tu"]) :=
  pieces_as_whole bareEnvironment 0 (by decide) [bytes "<turn|><tu"] (bytes "rn|>") (by decide)
    fun _ hp hpre => no_header_of_turn hp hpre rfl

theorem stop_ne_none : FinishReason.stop ≠ .none := by decide

/-- Behind a complete marker a partial one is given out, and its rest with the next chunk. -/
theorem marker_emitted_in_pieces :
    ∃ ds t es u, RunsHidden bareEnvironment (hiddenInitial 0)
        (divided [bytes "<turn|><tu"] (bytes "rn|>") .stop) ds t ∧
      RunsHidden bareEnvironment (hiddenInitial 0) [(bytes "<turn|><turn|>", .stop)] es u ∧
      contentText ds = bytes "<turn|>" ∧ contentText es = [] := by
  obtain ⟨ds, t, hpieces, hout⟩ := runsHidden_emits bareEnvironment stop_ne_none
    [bytes "<turn|><tu"] (bytes "rn|>") (hiddenInitial_hidden 0) rfl (by decide) fun _ _ hp hpre => no_header_of_turn hp hpre rfl
  obtain ⟨es, u, hwhole, hnone⟩ := runsHidden_emits bareEnvironment stop_ne_none
    [] (bytes "<turn|><turn|>") (hiddenInitial_hidden 0) rfl (by decide) fun _ _ hp hpre => no_header_of_turn hp hpre rfl
  refine ⟨ds, t, es, u, hpieces, hwhole, ?_, ?_⟩
  · rw [hout]
    decide +kernel
  · rw [hnone]
    decide +kernel

end Claim

end ModelServer.Gemma4Route
