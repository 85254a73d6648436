import ModelServer.ContentParsers

namespace ModelServer

namespace OutputParser

section Protocol

variable {τ ρ κ : Type}

/-- A route whose content is parsed by `content`. -/
def contentRoute (tool : BaseOutputParser τ) (reasoning : BaseOutputParser ρ) (content : BaseOutputParser κ) : OutputParser τ ρ κ where
  toolParser := tool
  reasoningParser := reasoning
  contentParser := content

variable (o : OutputParser τ ρ κ)

/-- Content arrives. -/
def parseContentInput (s : State τ ρ κ) (input : Input) : Option Delta × State τ ρ κ :=
  o.parseContentChunk (s.receive input.1 s.toolsEnabledForChunk input.2) input.2

/-- The deltas of content that is received in parts. -/
def contentDeltas (s : State τ ρ κ) : List Input → List Delta
  | [] => []
  | input :: inputs => (o.parseContentInput s input).1.toList ++ contentDeltas (o.parseContentInput s input).2 inputs

/-- The parts of a content, the last of which the generation ends with. -/
def ended (chunks : List Str) (last : Str) (finishReason : FinishReason) : List Input :=
  chunks.map (fun chunk => (chunk, FinishReason.none)) ++ [(last, finishReason)]

/-- The generation has not finished. -/
def State.Running (s : State τ ρ κ) : Prop := s.terminalContentFinish = .none

variable (tool : BaseOutputParser τ) (reasoning : BaseOutputParser ρ) (content : BaseOutputParser κ) {s : State τ ρ κ}

/-- The content parser is given the whole buffer, and what it gives is released. -/
theorem parseContentInput_eq (hs : s.Running) (chunk : Str) (finishReason : FinishReason) :
    (contentRoute tool reasoning content).parseContentInput s (chunk, finishReason) =
      (s.receive chunk s.toolsEnabledForChunk finishReason).release false
        (content.parseChunk s.contentState (s.buffer ++ chunk) finishReason) := by
  have hreason : (if (s.receive chunk s.toolsEnabledForChunk finishReason).terminalContentFinish ≠ .none then
      (s.receive chunk s.toolsEnabledForChunk finishReason).terminalContentFinish else finishReason) = finishReason := by
    rw [State.receive]
    dsimp only
    rw [show s.terminalContentFinish = .none from hs]
    cases finishReason <;> rfl
  have hfilter : (contentRoute tool reasoning content).filterContent (s.receive chunk s.toolsEnabledForChunk finishReason) finishReason =
      some (s.buffer ++ chunk) := by
    rw [filterContent, if_neg (by simp [contentRoute])]
    rfl
  rw [parseContentInput, parseContentChunk_eq, hreason]
  dsimp only
  rw [hfilter]
  rfl

/-- A held buffer is kept. -/
theorem parseContentInput_held {chunk : Str} {finishReason : FinishReason} {contentState : κ} (hs : s.Running)
    (h : content.parseChunk s.contentState (s.buffer ++ chunk) finishReason = (none, contentState)) :
    ∃ t, (contentRoute tool reasoning content).parseContentInput s (chunk, finishReason) = (none, t) ∧
      t.contentState = contentState ∧ t.buffer = s.buffer ++ chunk ∧ (finishReason = .none → t.Running) := by
  refine ⟨_, (parseContentInput_eq tool reasoning content hs chunk finishReason).trans (by rw [h]; rfl), rfl, rfl, ?_⟩
  rintro rfl
  exact hs

/-- Content empties the buffer; an empty one is no delta. -/
theorem parseContentInput_given {chunk text : Str} {finishReason : FinishReason} {contentState : κ} (hs : s.Running)
    (h : content.parseChunk s.contentState (s.buffer ++ chunk) finishReason = (some (.content text), contentState)) :
    ∃ d t, (contentRoute tool reasoning content).parseContentInput s (chunk, finishReason) = (d, t) ∧
      contentText d.toList = text ∧ t.contentState = contentState ∧ t.buffer = [] ∧ (finishReason = .none → t.Running) := by
  have heq := parseContentInput_eq tool reasoning content hs chunk finishReason
  rw [h, State.release] at heq
  refine ⟨_, _, heq, ?_, rfl, rfl, ?_⟩
  · cases text with
    | nil => rfl
    | cons c text => exact List.append_nil (c :: text)
  · rintro rfl
    exact hs

end Protocol

end OutputParser

section Overlaps

theorem ne_nil_of_absent {text tag : Str} (h : ¬tag <:+: text) : tag ≠ [] := by
  rintro rfl
  exact h List.nil_infix

/-- A text overlaps a tag where it ends in a beginning of the tag. -/
theorem stringsOverlap_iff_suffix {text tag : Str} (ht : tag ≠ []) :
    stringsOverlap text tag = true ↔ ∃ part, part ≠ [] ∧ part <:+ text ∧ part <+: tag := by
  rw [stringsOverlap_iff ht]
  constructor
  · rintro ⟨n, hpos, hl, htl, h⟩
    refine ⟨tag.take n, ?_, h ▸ List.drop_suffix _ _, List.take_prefix n tag⟩
    rw [← List.length_pos_iff, List.length_take]
    omega
  · rintro ⟨part, hne, hsuffix, hbegins⟩
    refine ⟨part.length, List.length_pos_iff.mpr hne, hsuffix.length_le, hbegins.length_le, ?_⟩
    rw [← List.suffix_iff_eq_drop.mp hsuffix]
    exact List.prefix_iff_eq_take.mp hbegins

@[simp] theorem stringsOverlap_nil {tag : Str} (ht : tag ≠ []) : stringsOverlap [] tag = false := by
  by_contra h
  obtain ⟨part, hne, hsuffix, -⟩ := (stringsOverlap_iff_suffix ht).mp (Bool.not_eq_false _ ▸ h)
  exact hne (List.suffix_nil.mp hsuffix)

end Overlaps

section Holding

open OutputParser

variable {τ ρ : Type} (tool : BaseOutputParser τ) (reasoning : BaseOutputParser ρ) {content : BaseOutputParser Unit} {tags held : List Str}
  {hold : Str → FinishReason → Bool} {s : OutputParser.State τ ρ Unit}

/-- A parser that gives the whole buffer unless it holds it, as it does where the buffer ends in a part of some of its tags. -/
structure Holds (content : BaseOutputParser Unit) (tags held : List Str) (hold : Str → FinishReason → Bool) : Prop where
  subset : held ⊆ tags
  parseChunk (buffer : Str) (finishReason : FinishReason) (h : ∀ tag ∈ tags, ¬tag <:+: buffer) :
    content.parseChunk () buffer finishReason = if hold buffer finishReason then (none, ()) else (some (.content buffer), ())
  overlaps (buffer : Str) : hold buffer .none = held.any (stringsOverlap buffer)

/-- What has been given does not end in a part of a tag, and the rest is given unless it is held at the end. -/
theorem Holds.contentText (h : Holds content tags held hold) (chunks : List Str) (last : Str) (finishReason : FinishReason) (hs : s.Running)
    (htags : ∀ tag ∈ tags, ¬tag <:+: s.buffer ++ (chunks.flatten ++ last)) :
    ∃ front back, front ++ back = s.buffer ++ (chunks.flatten ++ last) ∧ (∀ tag ∈ held, stringsOverlap front tag = false) ∧
      contentText ((contentRoute tool reasoning content).contentDeltas s (ended chunks last finishReason)) =
        if hold back finishReason then front else front ++ back := by
  induction chunks generalizing s with
  | nil =>
    refine ⟨[], s.buffer ++ last, rfl, fun tag hm => stringsOverlap_nil (ne_nil_of_absent (htags tag (h.subset hm))), ?_⟩
    have hparse := h.parseChunk (s.buffer ++ last) finishReason htags
    rw [ended, List.map_nil, List.nil_append, contentDeltas, contentDeltas, List.append_nil, List.nil_append]
    split
    next hheld =>
      rw [if_pos hheld] at hparse
      obtain ⟨t, hstep, -, -, -⟩ := parseContentInput_held tool reasoning _ hs hparse
      rw [hstep]
      rfl
    next hheld =>
      rw [if_neg hheld] at hparse
      obtain ⟨d, t, hstep, htext, -, -, -⟩ := parseContentInput_given tool reasoning _ hs hparse
      rw [hstep, htext]
  | cons chunk chunks ih =>
    have hall : s.buffer ++ ((chunk :: chunks).flatten ++ last) = (s.buffer ++ chunk) ++ (chunks.flatten ++ last) := by
      rw [List.flatten_cons, List.append_assoc, List.append_assoc]
    rw [hall] at htags ⊢
    have hhere : ∀ tag ∈ tags, ¬tag <:+: s.buffer ++ chunk := fun tag hm hin => htags tag hm (hin.trans (List.prefix_append _ _).isInfix)
    have hparse := h.parseChunk (s.buffer ++ chunk) .none hhere
    rw [ended, List.map_cons, List.cons_append, contentDeltas]
    by_cases hheld : hold (s.buffer ++ chunk) .none = true
    · rw [if_pos hheld] at hparse
      obtain ⟨t, hstep, -, hbuffer, hrunning⟩ := parseContentInput_held tool reasoning _ hs hparse
      obtain ⟨front, back, hsplit, hfront, htext⟩ := ih (hrunning rfl) (hbuffer ▸ htags)
      rw [hstep]
      exact ⟨front, back, hsplit.trans (by rw [hbuffer]), hfront, htext⟩
    · rw [if_neg hheld] at hparse
      obtain ⟨d, t, hstep, hgiven, -, hbuffer, hrunning⟩ := parseContentInput_given tool reasoning _ hs hparse
      have hlater : ∀ tag ∈ tags, ¬tag <:+: t.buffer ++ (chunks.flatten ++ last) := by
        intro tag hm hin
        rw [hbuffer] at hin
        exact htags tag hm (hin.trans (List.suffix_append _ _).isInfix)
      obtain ⟨front, back, hsplit, hfront, htext⟩ := ih (hrunning rfl) hlater
      rw [hbuffer, List.nil_append] at hsplit
      refine ⟨s.buffer ++ chunk ++ front, back, by rw [List.append_assoc, hsplit], ?_, ?_⟩
      · intro tag hm
        have hne := ne_nil_of_absent (htags tag (h.subset hm))
        rw [h.overlaps, List.any_eq_true] at hheld
        rw [stringsOverlap_append hne (by simpa using fun hover => hheld ⟨tag, hm, hover⟩)]
        exact hfront tag hm
      · rw [hstep, contentText_append, hgiven]
        rw [ended] at htext
        rw [htext]
        split
        next => rfl
        next => rw [← List.append_assoc]

end Holding

section Stateless

theorem eraseAll_of_none {tag text : Str} (h : ¬tag <:+: text) : eraseAll tag text = text := by
  have hne := ne_nil_of_absent h
  rw [eraseAll]
  cases text.length with
  | zero => rfl
  | succ n =>
    have hnone : Occurrence.indexOf? tag text = none :=
      (Occurrence.indexOf?_eq_none_iff hne).mpr fun i hat => h (Occurrence.infix_iff_at.mpr ⟨i, hat⟩)
    rw [eraseTag, hnone]

theorem any_find_of_none {tags : List Str} {text : Str} (h : ∀ tag ∈ tags, ¬tag <:+: text) :
    (tags.any fun tag => (find text tag 0).isSome) = false := by
  rw [List.any_eq_false]
  intro tag hm
  rw [find_of_none (ne_nil_of_absent (h tag hm)) (h tag hm)]
  exact Bool.false_ne_true

namespace OnyxContentParser

theorem eraseTags_of_none {tags : List Str} {text : Str} (h : ∀ tag ∈ tags, ¬tag <:+: text) : eraseTags text tags = text := by
  induction tags with
  | nil => rfl
  | cons tag tags ih =>
    rw [eraseTags, List.foldl_cons, eraseAll_of_none (h tag List.mem_cons_self)]
    exact ih fun other ho => h other (List.mem_cons_of_mem _ ho)

/-- The structural tags and those of the routing. -/
def tags : List Str := HOLD_TAGS ++ ROUTING_TAGS

theorem holds : Holds OnyxContentParser tags HOLD_TAGS fun buffer _ => HOLD_TAGS.any (stringsOverlap buffer) where
  subset := List.subset_append_left _ _
  parseChunk buffer finishReason h := by
    have hhold : ∀ tag ∈ HOLD_TAGS, ¬tag <:+: buffer := fun tag hm => h tag (List.mem_append_left _ hm)
    have hrouting : ∀ tag ∈ ROUTING_TAGS, ¬tag <:+: buffer := fun tag hm => h tag (List.mem_append_right _ hm)
    have hpartial : (HOLD_TAGS.any fun tag => (find buffer tag 0).isNone && stringsOverlap buffer tag) =
        HOLD_TAGS.any (stringsOverlap buffer) := by
      rw [Bool.eq_iff_iff, List.any_eq_true, List.any_eq_true]
      refine exists_congr fun tag => and_congr_right fun hm => ?_
      rw [find_of_none (ne_nil_of_absent (hhold tag hm)) (hhold tag hm), Option.isNone_none, Bool.true_and]
    show OnyxContentParser.parseChunk () buffer finishReason = _
    rw [OnyxContentParser.parseChunk, hpartial, any_find_of_none hhold]
    dsimp only
    rw [if_neg Bool.false_ne_true, eraseTags_of_none hrouting]
  overlaps _ := rfl

end OnyxContentParser

theorem DefaultContentParser.holds (stringsToErase : List Str) : Holds (DefaultContentParser stringsToErase) stringsToErase stringsToErase
    fun buffer finishReason => finishReason = .none && stringsToErase.any (stringsOverlap buffer) where
  subset := List.Subset.refl _
  parseChunk buffer finishReason h := by
    simp only [DefaultContentParser, any_find_of_none h, Bool.not_false, Bool.true_and, Bool.false_eq_true, if_false]
  overlaps _ := rfl

end Stateless

namespace GptOssContentParser

section PartialTags

/-- A text ends in a part of a tag that is not the whole tag. -/
structure EndsIn (text tag part : Str) : Prop where
  suffix : part <:+ text
  isPrefix : part <+: tag
  partly : part.length < tag.length

theorem find?_range_reverse {p : Nat → Bool} {m n : Nat} (h : (List.range m).reverse.find? p = some n) :
    p n = true ∧ n < m ∧ ∀ k, n < k → k < m → p k = false := by
  induction m with
  | zero => cases h
  | succ m ih =>
    rw [List.range_succ, List.reverse_append, List.reverse_singleton, List.singleton_append, List.find?_cons] at h
    cases hm : p m with
    | true =>
      rw [hm] at h
      cases h
      exact ⟨hm, Nat.lt_succ_self _, fun k hlt hle => absurd hlt (by omega)⟩
    | false =>
      rw [hm] at h
      obtain ⟨hn, hlt, hlater⟩ := ih h
      refine ⟨hn, by omega, fun k hnk hk => ?_⟩
      rcases Nat.lt_or_ge k m with hkm | hkm
      · exact hlater k hnk hkm
      · rw [show k = m by omega, hm]

/-- The longest part of one of the tags that the text ends in. -/
theorem findPartialTagLength_spec (text : Str) (tags : List Str) :
    (∀ tag ∈ tags, ∀ part, EndsIn text tag part → part.length ≤ findPartialTagLength text tags) ∧
      (findPartialTagLength text tags = 0 ∨
        ∃ tag ∈ tags, ∃ part, EndsIn text tag part ∧ part.length = findPartialTagLength text tags) := by
  induction tags using List.reverseRecOn with
  | nil => exact ⟨nofun, .inl rfl⟩
  | append_singleton tags tag ih =>
    obtain ⟨hlongest, hsome⟩ := ih
    have hsome' : findPartialTagLength text tags = 0 ∨
        ∃ other ∈ tags ++ [tag], ∃ part, EndsIn text other part ∧ part.length = findPartialTagLength text tags := by
      refine hsome.imp_right fun hpart => ?_
      obtain ⟨other, hm, hpart⟩ := hpart
      exact ⟨other, List.mem_append_left _ hm, hpart⟩
    have hstep : findPartialTagLength text (tags ++ [tag]) =
        if tag.isEmpty then findPartialTagLength text tags
        else ((List.range (min text.length (tag.length - 1) + 1)).reverse.find? fun length =>
          findPartialTagLength text tags < length && text.drop (text.length - length) == tag.take length).getD
            (findPartialTagLength text tags) := by
      rw [findPartialTagLength, List.foldl_append]
      rfl
    simp only [List.forall_mem_append, List.forall_mem_singleton]
    by_cases hempty : tag.isEmpty = true
    · rw [hstep, if_pos hempty]
      refine ⟨⟨hlongest, fun part hpart => ?_⟩, hsome'⟩
      have hlt := hpart.partly
      rw [List.isEmpty_iff.mp hempty] at hlt
      exact absurd hlt (Nat.not_lt_zero _)
    rw [if_neg hempty] at hstep
    have hfits : ∀ part, EndsIn text tag part → part.length < min text.length (tag.length - 1) + 1 ∧
        (text.drop (text.length - part.length) == tag.take part.length) = true := by
      intro part hpart
      have hle := hpart.suffix.length_le
      have hlt := hpart.partly
      refine ⟨by omega, ?_⟩
      rw [beq_iff_eq, ← List.suffix_iff_eq_drop.mp hpart.suffix]
      exact List.prefix_iff_eq_take.mp hpart.isPrefix
    cases hfound : (List.range (min text.length (tag.length - 1) + 1)).reverse.find? fun length =>
        findPartialTagLength text tags < length && text.drop (text.length - length) == tag.take length with
    | none =>
      rw [hfound] at hstep
      rw [hstep]
      refine ⟨⟨hlongest, fun part hpart => ?_⟩, hsome'⟩
      obtain ⟨hlt, hmatch⟩ := hfits part hpart
      have hnot := List.find?_eq_none.mp hfound part.length (List.mem_reverse.mpr (List.mem_range.mpr hlt))
      rw [hmatch, Bool.and_true, decide_eq_true_eq] at hnot
      exact Nat.le_of_not_lt hnot
    | some n =>
      obtain ⟨hn, hlt, hlater⟩ := find?_range_reverse hfound
      rw [Bool.and_eq_true, decide_eq_true_eq, beq_iff_eq] at hn
      rw [hfound] at hstep
      rw [hstep, Option.getD_some]
      refine ⟨⟨fun other hm part hpart => (hlongest other hm part hpart).trans hn.1.le, fun part hpart => ?_⟩, .inr ?_⟩
      · obtain ⟨hle, hmatch⟩ := hfits part hpart
        by_contra hlong
        have hno := hlater part.length (by omega) hle
        rw [hmatch, Bool.and_true, decide_eq_false_iff_not] at hno
        omega
      · have hlength : (tag.take n).length = n := by
          rw [List.length_take]
          omega
        refine ⟨tag, List.mem_append_right _ (List.mem_singleton_self tag), tag.take n, ⟨?_, List.take_prefix n tag, by omega⟩, hlength⟩
        rw [← hn.2]
        exact List.drop_suffix _ _

end PartialTags

section Bodies

open OutputParser

variable {τ ρ : Type} (tool : BaseOutputParser τ) (reasoning : BaseOutputParser ρ)

/-- The body of a visible message is being read, and the rest of what has been received of it is held. -/
structure Reading (s : OutputParser.State τ ρ State) (received : Str) : Prop where
  running : s.Running
  body : s.contentState.streamState = .readingBody
  visible : s.contentState.shouldEmitCurrentMessageBody = true
  processed : s.contentState.processedChunkSize = s.buffer.length
  held : s.contentState.pendingInput <:+ received
  longest : ∀ tag ∈ MESSAGE_END_TAGS, ∀ part, EndsIn received tag part → part.length ≤ s.contentState.pendingInput.length
  begun : s.contentState.pendingInput = [] ∨ ∃ tag ∈ MESSAGE_END_TAGS, s.contentState.pendingInput <+: tag

/-- How much of an input is content. -/
def contentLength (input : Str) : Nat := input.length - findPartialTagLength input MESSAGE_END_TAGS

/-- Without an end tag, the body is given up to what may become one. -/
theorem parseChunk_body {state : State} (hbody : state.streamState = .readingBody) (hvisible : state.shouldEmitCurrentMessageBody = true)
    {buffer chunk : Str} (hprocessed : state.processedChunkSize = buffer.length)
    (hopen : ∀ tag ∈ MESSAGE_END_TAGS, ¬tag <:+: state.pendingInput ++ chunk) (finishReason : FinishReason) :
    state.parseChunk (buffer ++ chunk) finishReason =
      let input := state.pendingInput ++ chunk
      let content := input.take (contentLength input)
      let next := { state with
        pendingInput := input.drop (contentLength input)
        processedChunkSize := if content.isEmpty then (buffer ++ chunk).length else 0 }
      (if content.isEmpty then none else some (.content content), next) := by
  have happend : state.appendNewChunk (buffer ++ chunk) = { state with
      pendingInput := state.pendingInput ++ chunk
      processedChunkSize := (buffer ++ chunk).length } := by
    rw [State.appendNewChunk, hprocessed, Nat.min_eq_left (by simp), List.drop_left]
  have hall : (state.appendNewChunk (buffer ++ chunk)).parseAll =
      ⟨{ state with
          pendingInput := (state.pendingInput ++ chunk).drop (contentLength (state.pendingInput ++ chunk))
          processedChunkSize := (buffer ++ chunk).length },
        (state.pendingInput ++ chunk).take (contentLength (state.pendingInput ++ chunk)), false⟩ := by
    rw [happend]
    have hexits := State.parseAll_exits { state with
      pendingInput := state.pendingInput ++ chunk
      processedChunkSize := (buffer ++ chunk).length }
    refine hexits.unique (.leave ?_)
    rw [State.parseBody]
    by_cases hinput : state.pendingInput ++ chunk = []
    · simp [hinput]
    · have hnone : findEarliestTag (state.pendingInput ++ chunk) MESSAGE_END_TAGS = none := by
        by_contra hsome
        obtain ⟨m, hm⟩ := Option.ne_none_iff_exists'.mp hsome
        obtain ⟨tag, hmem, hne, -, hindex⟩ := findEarliestTag_mem hm
        exact hopen tag hmem (Occurrence.infix_iff_at.mpr ⟨m.position, ((Occurrence.indexOf?_eq_some_iff hne).mp hindex).1⟩)
      rw [if_neg (by simpa using hinput)]
      simp [hbody, State.consumeBody, hnone, State.emit, hvisible, contentLength]
  rw [State.parseChunk, hall]
  dsimp only
  cases ((state.pendingInput ++ chunk).take (contentLength (state.pendingInput ++ chunk))).isEmpty <;> rfl

/-- What a part of the body leaves held is the longest part of an end tag. -/
theorem Reading.longest_held {s : OutputParser.State τ ρ State} {received : Str} (h : Reading s received) (chunk : Str) :
    let input := s.contentState.pendingInput ++ chunk
    let held := input.drop (contentLength input)
    held <:+ received ++ chunk ∧
      (∀ tag ∈ MESSAGE_END_TAGS, ∀ part, EndsIn (received ++ chunk) tag part → part.length ≤ held.length) ∧
      (held = [] ∨ ∃ tag ∈ MESSAGE_END_TAGS, held <+: tag) := by
  dsimp only
  have hinput : s.contentState.pendingInput ++ chunk <:+ received ++ chunk := (List.suffix_append_inj_of_length_eq rfl).mpr ⟨h.held, rfl⟩
  generalize hname : s.contentState.pendingInput ++ chunk = input at hinput
  obtain ⟨hlongest, hsome⟩ := findPartialTagLength_spec input MESSAGE_END_TAGS
  have hfits : findPartialTagLength input MESSAGE_END_TAGS ≤ input.length := by
    rcases hsome with hzero | ⟨tag, _, part, hpart, hlength⟩
    · omega
    · rw [← hlength]
      exact hpart.suffix.length_le
  have hheld : (input.drop (contentLength input)).length = findPartialTagLength input MESSAGE_END_TAGS := by
    rw [List.length_drop, contentLength]
    omega
  refine ⟨(List.drop_suffix _ _).trans hinput, fun tag hm part hpart => ?_, ?_⟩
  · rw [hheld]
    rcases Nat.lt_or_ge input.length part.length with hlong | hle
    · -- a longer part would have been held before
      have hlengths := congrArg List.length hname
      rw [List.length_append] at hlengths
      obtain ⟨front, rfl⟩ := List.suffix_of_suffix_length_le (List.suffix_append received chunk) hpart.suffix (by omega)
      have hpartly := hpart.partly
      rw [List.length_append] at hlong hpartly
      have hbefore := h.longest tag hm front
        ⟨((List.suffix_append_inj_of_length_eq rfl).mp hpart.suffix).1, (List.prefix_append front chunk).trans hpart.isPrefix, by omega⟩
      omega
    · exact hlongest tag hm part ⟨List.suffix_of_suffix_length_le hpart.suffix hinput hle, hpart.isPrefix, hpart.partly⟩
  · rcases hsome with hzero | ⟨tag, hm, part, hpart, hlength⟩
    · exact .inl (List.length_eq_zero_iff.mp (hheld.trans hzero))
    · right
      refine ⟨tag, hm, ?_⟩
      have hsame : part = input.drop (contentLength input) := by
        rw [List.suffix_iff_eq_drop.mp hpart.suffix, hlength]
        rfl
      exact hsame ▸ hpart.isPrefix

/-- One more part of a body. -/
theorem Reading.next {s : OutputParser.State τ ρ State} {received : Str} (h : Reading s received) (chunk : Str)
    (hopen : ∀ tag ∈ MESSAGE_END_TAGS, ¬tag <:+: received ++ chunk) (finishReason : FinishReason) :
    ∃ d t, (contentRoute tool reasoning GptOssContentParser).parseContentInput s (chunk, finishReason) = (d, t) ∧
      contentText d.toList ++ t.contentState.pendingInput = s.contentState.pendingInput ++ chunk ∧
      t.contentState.pendingInput <:+ received ++ chunk ∧
      (∀ tag ∈ MESSAGE_END_TAGS, ∀ part, EndsIn (received ++ chunk) tag part → part.length ≤ t.contentState.pendingInput.length) ∧
      (t.contentState.pendingInput = [] ∨ ∃ tag ∈ MESSAGE_END_TAGS, t.contentState.pendingInput <+: tag) ∧
      (finishReason = .none → Reading t (received ++ chunk)) := by
  have hinput : s.contentState.pendingInput ++ chunk <:+ received ++ chunk := (List.suffix_append_inj_of_length_eq rfl).mpr ⟨h.held, rfl⟩
  obtain ⟨hheld, hlongest, hbegun⟩ := h.longest_held chunk
  have hparse := parseChunk_body h.body h.visible h.processed
    (fun tag hm hin => hopen tag hm (hin.trans hinput.isInfix)) finishReason
  dsimp only at hparse hheld hlongest hbegun
  generalize s.contentState.pendingInput ++ chunk = input at hparse hheld hlongest hbegun ⊢
  by_cases hempty : (input.take (contentLength input)).isEmpty = true
  · rw [if_pos hempty, if_pos hempty] at hparse
    obtain ⟨t, hstep, hcontent, hbuffer, hrunning⟩ := parseContentInput_held tool reasoning GptOssContentParser h.running hparse
    have hpending : t.contentState.pendingInput = input.drop (contentLength input) := by rw [hcontent]
    refine ⟨none, t, hstep, ?_, hpending ▸ hheld, hpending ▸ hlongest, hpending ▸ hbegun, fun hf => ?_⟩
    · have hsplit := List.take_append_drop (contentLength input) input
      rw [List.isEmpty_iff.mp hempty] at hsplit
      rw [hpending]
      exact hsplit
    · exact ⟨hrunning hf, by rw [hcontent]; exact h.body, by rw [hcontent]; exact h.visible, by rw [hcontent, hbuffer],
        hpending ▸ hheld, hpending ▸ hlongest, hpending ▸ hbegun⟩
  · rw [if_neg hempty, if_neg hempty] at hparse
    obtain ⟨d, t, hstep, htext, hcontent, hbuffer, hrunning⟩ := parseContentInput_given tool reasoning GptOssContentParser h.running hparse
    have hpending : t.contentState.pendingInput = input.drop (contentLength input) := by rw [hcontent]
    refine ⟨d, t, hstep, ?_, hpending ▸ hheld, hpending ▸ hlongest, hpending ▸ hbegun, fun hf => ?_⟩
    · rw [htext, hpending, List.take_append_drop]
    · exact ⟨hrunning hf, by rw [hcontent]; exact h.body, by rw [hcontent]; exact h.visible, by rw [hcontent, hbuffer]; rfl,
        hpending ▸ hheld, hpending ▸ hlongest, hpending ▸ hbegun⟩

/-- Of a body, all is given but the longest part of an end tag that it ends in. -/
theorem Reading.contentText {s : OutputParser.State τ ρ State} {received : Str} (h : Reading s received) (chunks : List Str) (last : Str)
    (finishReason : FinishReason) (hopen : ∀ tag ∈ MESSAGE_END_TAGS, ¬tag <:+: received ++ (chunks.flatten ++ last)) :
    ∃ rest, contentText ((contentRoute tool reasoning GptOssContentParser).contentDeltas s (ended chunks last finishReason)) ++ rest =
        s.contentState.pendingInput ++ (chunks.flatten ++ last) ∧
      (rest = [] ↔ ∀ tag ∈ MESSAGE_END_TAGS, stringsOverlap (received ++ (chunks.flatten ++ last)) tag = false) := by
  induction chunks generalizing s received with
  | nil =>
    rw [List.flatten_nil, List.nil_append] at hopen ⊢
    obtain ⟨d, t, hstep, hsplit, hheld, hlongest, hbegun, -⟩ := h.next tool reasoning last hopen finishReason
    refine ⟨t.contentState.pendingInput, ?_, ?_, ?_⟩
    · rw [ended, List.map_nil, List.nil_append, contentDeltas, contentDeltas, List.append_nil, hstep, hsplit]
    · intro hnil tag hm
      by_contra hover
      have hne := ne_nil_of_absent (hopen tag hm)
      obtain ⟨part, hpart, hsuffix, hbegins⟩ := (stringsOverlap_iff_suffix hne).mp (Bool.not_eq_false _ ▸ hover)
      have hpartly : part.length < tag.length := by
        refine Nat.lt_of_le_of_ne hbegins.length_le fun hall => ?_
        exact hopen tag hm ((hbegins.eq_of_length hall) ▸ hsuffix.isInfix)
      have hshort := hlongest tag hm part ⟨hsuffix, hbegins, hpartly⟩
      rw [hnil, List.length_nil] at hshort
      exact hpart (List.length_eq_zero_iff.mp (Nat.le_zero.mp hshort))
    · intro hno
      by_contra hne
      obtain ⟨tag, hm, hbegins⟩ := hbegun.resolve_left hne
      have hover := (stringsOverlap_iff_suffix (ne_nil_of_absent (hopen tag hm))).mpr ⟨_, hne, hheld, hbegins⟩
      rw [hno tag hm] at hover
      cases hover
  | cons chunk chunks ih =>
    have hall : received ++ ((chunk :: chunks).flatten ++ last) = (received ++ chunk) ++ (chunks.flatten ++ last) := by
      rw [List.flatten_cons, List.append_assoc, List.append_assoc]
    rw [hall] at hopen ⊢
    obtain ⟨d, t, hstep, hsplit, -, -, -, hreading⟩ := h.next tool reasoning chunk
      (fun tag hm hin => hopen tag hm (hin.trans (List.prefix_append _ _).isInfix)) .none
    obtain ⟨rest, htext, hrest⟩ := ih (hreading rfl) hopen
    refine ⟨rest, ?_, hrest⟩
    rw [ended] at htext
    rw [ended, List.map_cons, List.cons_append, contentDeltas, hstep, contentText_append, List.append_assoc, htext, ← List.append_assoc, hsplit,
      List.flatten_cons, List.append_assoc, List.append_assoc]

/-- The header of a visible message has been read. -/
structure AfterHeader (s : OutputParser.State τ ρ State) : Prop where
  running : s.Running
  body : s.contentState.streamState = .readingBody
  visible : s.contentState.shouldEmitCurrentMessageBody = true
  processed : s.contentState.processedChunkSize = s.buffer.length
  nothing : s.contentState.pendingInput = []

theorem AfterHeader.reading {s : OutputParser.State τ ρ State} (h : AfterHeader s) : Reading s [] where
  running := h.running
  body := h.body
  visible := h.visible
  processed := h.processed
  held := h.nothing ▸ List.suffix_rfl
  longest tag _ part hpart := by
    rw [List.suffix_nil.mp hpart.suffix]
    exact Nat.zero_le _
  begun := .inl h.nothing

/-- The header of a message that is shown leads there. -/
theorem afterHeader_of_header {s : OutputParser.State τ ρ State} {header : Str} (hs : s.Running) (hb : s.buffer = []) (hc : s.contentState = {})
    (hfirst : find (header ++ MESSAGE_TAG) MESSAGE_TAG 0 = some header.length) (hvisible : shouldEmitBody header = true) :
    ∃ t, (contentRoute tool reasoning GptOssContentParser).parseContentInput s (header ++ MESSAGE_TAG, .none) = (none, t) ∧ AfterHeader t := by
  have hne : header ++ MESSAGE_TAG ≠ [] := List.append_ne_nil_of_right_ne_nil _ (by decide)
  have happend : State.appendNewChunk {} (header ++ MESSAGE_TAG) =
      { pendingInput := header ++ MESSAGE_TAG, processedChunkSize := (header ++ MESSAGE_TAG).length } := by
    rw [State.appendNewChunk, Nat.min_eq_left (Nat.zero_le _)]
    rfl
  have hall : (State.appendNewChunk {} (header ++ MESSAGE_TAG)).parseAll =
      ⟨{ streamState := .readingBody
         pendingInput := []
         processedChunkSize := (header ++ MESSAGE_TAG).length
         shouldEmitCurrentMessageBody := true }, [], false⟩ := by
    rw [happend]
    have hexits := State.parseAll_exits
      { pendingInput := header ++ MESSAGE_TAG, processedChunkSize := (header ++ MESSAGE_TAG).length }
    refine hexits.unique (.again (t := ⟨{
        streamState := .readingBody
        pendingInput := []
        processedChunkSize := (header ++ MESSAGE_TAG).length
        shouldEmitCurrentMessageBody := true }, [], false⟩) ?_ (.leave rfl))
    rw [State.parseBody, if_neg (by simpa using hne)]
    simp [State.consumeHeader, hfirst, hvisible]
  have hparse : GptOssContentParser.parseChunk s.contentState (s.buffer ++ (header ++ MESSAGE_TAG)) .none = (none,
      { streamState := .readingBody
        pendingInput := []
        processedChunkSize := (header ++ MESSAGE_TAG).length
        shouldEmitCurrentMessageBody := true }) := by
    rw [hb, hc]
    show State.parseChunk {} (header ++ MESSAGE_TAG) .none = _
    rw [State.parseChunk, hall]
    rfl
  obtain ⟨t, hstep, hcontent, hbuffer, hrunning⟩ := parseContentInput_held tool reasoning _ hs hparse
  refine ⟨t, hstep, hrunning rfl, ?_, ?_, ?_, ?_⟩
  · rw [hcontent]
  · rw [hcontent]
  · rw [hcontent, hbuffer, hb]
    rfl
  · rw [hcontent]

end Bodies

end GptOssContentParser

section Released

open OutputParser

/-- The content parsers of the routes. -/
inductive ContentParser
  | default (stringsToErase : List Str)
  | gptOss
  | onyx

namespace ContentParser

/-- The strings that are erased, and the structural and routing tags. -/
def tags : ContentParser → List Str
  | .default stringsToErase => stringsToErase
  | .gptOss => GptOssContentParser.MESSAGE_END_TAGS ++
      [GptOssContentParser.MESSAGE_TAG, GptOssContentParser.START_TAG, GptOssContentParser.CHANNEL_TAG]
  | .onyx => OnyxContentParser.tags

/-- The tags of which a part is held even when the generation ends. -/
def withheld : ContentParser → List Str
  | .default _ => []
  | .gptOss => GptOssContentParser.MESSAGE_END_TAGS
  | .onyx => OnyxContentParser.HOLD_TAGS

def State : ContentParser → Type
  | .gptOss => GptOssContentParser.State
  | _ => Unit

def parser : (k : ContentParser) → BaseOutputParser k.State
  | .default stringsToErase => DefaultContentParser stringsToErase
  | .gptOss => GptOssContentParser
  | .onyx => OnyxContentParser

/-- Content begins: nothing is held, and of a message that is shown the header has been read. -/
def Begins {τ ρ : Type} : (k : ContentParser) → OutputParser.State τ ρ k.State → Prop
  | .default _, s => s.Running ∧ s.buffer = []
  | .gptOss, s => GptOssContentParser.AfterHeader s
  | .onyx, s => s.Running ∧ s.buffer = []

end ContentParser

/-- Content without a complete tag is given out as it was received if and only if it does not end in a part of a tag that the parser
goes on holding at the end. -/
theorem content_released_iff {τ ρ : Type} (tool : BaseOutputParser τ) (reasoning : BaseOutputParser ρ) (k : ContentParser)
    (s : OutputParser.State τ ρ k.State) (hs : k.Begins s) (chunks : List Str) (last : Str) (finishReason : FinishReason)
    (hf : finishReason = .stop ∨ finishReason = .length) (htags : ∀ tag ∈ k.tags, ¬tag <:+: chunks.flatten ++ last) :
    contentText ((contentRoute tool reasoning k.parser).contentDeltas s (ended chunks last finishReason)) = chunks.flatten ++ last ↔
      ∀ tag ∈ k.withheld, stringsOverlap (chunks.flatten ++ last) tag = false := by
  cases k with
  | default stringsToErase =>
    obtain ⟨hrunning, hb⟩ := hs
    have hall : ∀ tag ∈ stringsToErase, ¬tag <:+: s.buffer ++ (chunks.flatten ++ last) := by
      rw [hb]
      exact htags
    obtain ⟨front, back, hsplit, -, htext⟩ := (DefaultContentParser.holds stringsToErase).contentText tool reasoning
      chunks last finishReason hrunning hall
    have hnone : finishReason ≠ .none := by rcases hf with rfl | rfl <;> decide
    rw [hb, List.nil_append] at hsplit
    rw [decide_eq_false hnone, Bool.false_and, if_neg Bool.false_ne_true, hsplit] at htext
    exact iff_of_true htext nofun
  | gptOss =>
    have hopen : ∀ tag ∈ GptOssContentParser.MESSAGE_END_TAGS, ¬tag <:+: [] ++ (chunks.flatten ++ last) :=
      fun tag hm => htags tag (List.mem_append_left _ hm)
    obtain ⟨rest, htext, hrest⟩ := hs.reading.contentText tool reasoning chunks last finishReason hopen
    rw [hs.nothing, List.nil_append] at htext
    rw [List.nil_append] at hrest
    show _ ↔ ∀ tag ∈ GptOssContentParser.MESSAGE_END_TAGS, _
    rw [← hrest, ← htext]
    exact List.self_eq_append_right
  | onyx =>
    obtain ⟨hrunning, hb⟩ := hs
    have hall : ∀ tag ∈ OnyxContentParser.tags, ¬tag <:+: s.buffer ++ (chunks.flatten ++ last) := by
      rw [hb]
      exact htags
    obtain ⟨front, back, hsplit, hfront, htext⟩ := OnyxContentParser.holds.contentText tool reasoning
      chunks last finishReason hrunning hall
    rw [hb, List.nil_append] at hsplit
    have hne : ∀ tag ∈ OnyxContentParser.HOLD_TAGS, tag ≠ [] := fun tag hm => ne_nil_of_absent (htags tag (List.mem_append_left _ hm))
    have hoverlap : ∀ tag ∈ OnyxContentParser.HOLD_TAGS, stringsOverlap (chunks.flatten ++ last) tag = stringsOverlap back tag := by
      intro tag hm
      rw [← hsplit, stringsOverlap_append (hne tag hm) (hfront tag hm)]
    refine Iff.trans (b := (OnyxContentParser.HOLD_TAGS.any (stringsOverlap back)) = false) ?_ ?_
    · cases hheld : OnyxContentParser.HOLD_TAGS.any (stringsOverlap back) with
      | false =>
        rw [hheld, if_neg Bool.false_ne_true, hsplit] at htext
        exact iff_of_true htext rfl
      | true =>
        rw [hheld, if_pos rfl] at htext
        refine iff_of_false (fun hsame => ?_) Bool.noConfusion
        obtain ⟨tag, hm, hback⟩ := List.any_eq_true.mp hheld
        have hnil : back = [] := by
          rw [← hsplit] at hsame
          exact List.self_eq_append_right.mp (htext.symm.trans hsame)
        rw [hnil, stringsOverlap_nil (hne tag hm)] at hback
        cases hback
    · rw [List.any_eq_false]
      show _ ↔ ∀ tag ∈ OnyxContentParser.HOLD_TAGS, _
      refine forall₂_congr fun tag hm => ?_
      rw [hoverlap tag hm, Bool.not_eq_true]

/-- A route without a tool parser or a reasoning parser gives none of their deltas. -/
def noParser : BaseOutputParser Unit where
  parsingConfig := {}
  parseChunk s _ _ := (none, s)

/-- The body of a visible message begins. -/
def bodyState : OutputParser.State Unit Unit GptOssContentParser.State where
  toolState := ()
  reasoningState := ()
  contentState := { streamState := .readingBody, shouldEmitCurrentMessageBody := true }

def plainState : OutputParser.State Unit Unit Unit where
  toolState := ()
  reasoningState := ()
  contentState := ()

/-- A body is released that has a part of an end tag in it, but not at its end. -/
theorem content_released_part :
    contentText ((contentRoute noParser noParser GptOssContentParser).contentDeltas bodyState (ended [bytes "1 <"] (bytes "| 2") .stop)) =
      bytes "1 <| 2" := by
  refine (content_released_iff noParser noParser .gptOss bodyState ⟨rfl, rfl, rfl, rfl, rfl⟩ [bytes "1 <"] (bytes "| 2") .stop (.inl rfl)
    (by decide)).mpr (by decide)

/-- Content that ends in a character of a tag loses it, or all that is held with it. -/
theorem content_withheld :
    (ContentParser.gptOss.Begins bodyState ∧ (∀ tag ∈ ContentParser.gptOss.tags, ¬tag <:+: bytes "1 <") ∧
      contentText ((contentRoute noParser noParser GptOssContentParser).contentDeltas bodyState (ended [] (bytes "1 <") .length)) = bytes "1 ") ∧
    (ContentParser.onyx.Begins plainState ∧ (∀ tag ∈ ContentParser.onyx.tags, ¬tag <:+: bytes "1 <") ∧
      contentText ((contentRoute noParser noParser OnyxContentParser).contentDeltas plainState (ended [] (bytes "1 <") .length)) = []) := by
  refine ⟨⟨⟨rfl, rfl, rfl, rfl, rfl⟩, by decide, by decide⟩, ⟨rfl, rfl⟩, by decide, by decide⟩

end Released

end ModelServer
