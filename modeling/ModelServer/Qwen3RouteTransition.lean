import ModelServer.Qwen3RouteContent

namespace ModelServer.Qwen3Route

open Qwen3ReasoningParser Qwen3CoderToolParser OutputParser

/-- Some chunk ends where no start tag, `<think>` included, can be under way. -/
def OpenedWithin (chunks : List Str) (k : Nat) : Prop :=
  ∃ j, 1 ≤ j ∧ j < k ∧ held .unknown (chunks.take j).flatten = false

/-- A chunk ends exactly behind `text`, no tool tag can be under way there, and
neither can `<think>`, unless the channel was opened before. -/
def Released (text : Str) (chunks : List Str) : Prop :=
  ∃ k, 1 ≤ k ∧ k ≤ chunks.length ∧ (chunks.take k).flatten = text ∧
    held .content text = false ∧ (held .unknown text = false ∨ OpenedWithin chunks k)

theorem take_append_single {chunks : List Str} {k : Nat} (hk : k ≤ chunks.length) (chunk : Str) :
    (chunks ++ [chunk]).take k = chunks.take k :=
  List.take_append_of_le_length hk

theorem OpenedWithin.append {chunks : List Str} {k : Nat} (h : OpenedWithin chunks k)
    (hk : k ≤ chunks.length + 1) (chunk : Str) : OpenedWithin (chunks ++ [chunk]) k := by
  obtain ⟨j, hj, hlt, hh⟩ := h
  refine ⟨j, hj, hlt, ?_⟩
  rwa [take_append_single (by omega)]

theorem Released.append {text : Str} {chunks : List Str} (h : Released text chunks) (chunk : Str) :
    Released text (chunks ++ [chunk]) := by
  obtain ⟨k, hk, hle, htake, hheld, hopen⟩ := h
  refine ⟨k, hk, by simp; omega, ?_, hheld, hopen.imp id (·.append (by omega) chunk)⟩
  rwa [take_append_single hle]

namespace Channel

theorem after_append (chunks : List Str) (chunk : Str) :
    after (chunks ++ [chunk]) = (after chunks).step chunk := by
  simp [after]

theorem after_text (chunks : List Str) : (after chunks).text = chunks.flatten := by
  simp [after]

theorem held_content {phase : ProcessingPhase} {text : Str} (h : held phase text = false) :
    held .content text = false := by
  simp only [held, Bool.or_eq_false_iff] at h ⊢
  exact ⟨h.1, by simp⟩

/-- The content given out ends at a chunk where the text was released. -/
theorem after_released (chunks : List Str) :
    ((after chunks).opened = true → OpenedWithin chunks (chunks.length + 1)) ∧
      ¬ HasToolTag (after chunks).content ∧
      ((after chunks).content = [] ∨ Released (after chunks).content chunks) := by
  induction chunks using List.reverseRecOn with
  | nil => exact ⟨by simp [after], by decide, Or.inl rfl⟩
  | append_singleton chunks chunk ih =>
    obtain ⟨hopen, htag, hrel⟩ := ih
    have htext : (after chunks).text ++ chunk = (chunks ++ [chunk]).flatten := by
      simp [after_text]
    rw [after_append, step, settle]
    split
    next =>
      refine ⟨fun ho => ?_, htag, hrel.imp id (·.append chunk)⟩
      obtain ⟨j, hj, hlt, hh⟩ := (hopen ho).append (Nat.le_refl _) chunk
      exact ⟨j, hj, by simp only [List.length_append]; omega, hh⟩
    next hquiet =>
      obtain ⟨hnone, hheld⟩ := not_or.mp hquiet
      rw [Bool.not_eq_true] at hheld
      have hphase : (after chunks).opened = true ∨ held .unknown ((after chunks).text ++ chunk) = false := by
        cases ho : (after chunks).opened with
        | true => exact Or.inl rfl
        | false =>
          right
          have hp : ((after chunks).receive chunk).phase = .unknown := by
            simp [phase, receive, ho]
          rwa [hp] at hheld
      have hwithin : held .unknown ((after chunks).text ++ chunk) = false ∨
          OpenedWithin (chunks ++ [chunk]) (chunks.length + 1) := by
        rcases hphase with ho | hh
        · exact Or.inr ((hopen ho).append (Nat.le_refl _) chunk)
        · exact Or.inl hh
      have htake : (chunks ++ [chunk]).take (chunks.length + 1) = chunks ++ [chunk] := by
        simp
      refine ⟨fun _ => ?_, hnone, Or.inr ⟨chunks.length + 1, by omega, by simp, ?_,
        held_content hheld, hwithin⟩⟩
      · rcases hwithin with hh | ⟨j, hj, hlt, hh⟩
        · refine ⟨chunks.length + 1, by omega, by simp, ?_⟩
          rwa [htake, ← htext]
        · exact ⟨j, hj, by simp only [List.length_append]; omega, hh⟩
      · rw [htake]
        exact htext.symm

theorem held_any {phase : ProcessingPhase} {text : Str} (h : held .unknown text = false) :
    held phase text = false := by
  simp only [held, Bool.or_eq_false_iff] at h ⊢
  refine ⟨h.1, ?_⟩
  have hthink : stringsOverlap text startTag = false := by simpa using h.2
  simp [hthink]

theorem hasToolTag_prefix {x y : Str} (h : x <+: y) (hx : HasToolTag x) : HasToolTag y :=
  hx.imp (·.trans h.isInfix) (·.trans h.isInfix)

theorem opened_after {chunks : List Str} (htag : ¬ HasToolTag chunks.flatten) {j : Nat} (hj : 1 ≤ j)
    (hle : j ≤ chunks.length) (hh : held .unknown (chunks.take j).flatten = false) :
    (after chunks).opened = true := by
  induction chunks using List.reverseRecOn with
  | nil => simp only [List.length_nil] at hle; omega
  | append_singleton chunks chunk ih =>
    rw [after_append]
    by_cases hlast : j ≤ chunks.length
    · rw [take_append_single hlast] at hh
      refine step_opened (ih (fun hin => htag ?_) hlast hh) chunk
      exact hasToolTag_prefix (by simp) hin
    · have hall : (chunks ++ [chunk]).take j = chunks ++ [chunk] :=
        List.take_of_length_le (by simp; omega)
      have htext : ((after chunks).receive chunk).text = (chunks ++ [chunk]).flatten := by
        simp [receive, after_text]
      rw [hall] at hh
      have hquiet : ¬ held ((after chunks).receive chunk).phase (chunks ++ [chunk]).flatten = true := by
        rw [held_any hh]
        exact Bool.false_ne_true
      rw [step, settle, htext, if_neg (not_or.mpr ⟨htag, hquiet⟩)]

/-- Where a text is released, all of it has been given out. -/
theorem after_of_released {chunks : List Str} {text : Str} (hne : chunks ≠ [])
    (htext : chunks.flatten = text) (htag : ¬ HasToolTag text) (hheld : held .content text = false)
    (hopen : held .unknown text = false ∨ OpenedWithin chunks chunks.length) :
    after chunks = ⟨true, text, text⟩ := by
  obtain ⟨front, chunk, rfl⟩ := (List.eq_nil_or_concat' chunks).resolve_left hne
  have hall : ((after front).receive chunk).text = text := by
    rw [← htext]
    simp [receive, after_text]
  have hquiet : held ((after front).receive chunk).phase text = false := by
    rcases hopen with hh | ⟨j, hj, hlt, hh⟩
    · exact held_any hh
    · have hle : j ≤ front.length := by
        simp only [List.length_append, List.length_singleton] at hlt
        omega
      rw [take_append_single hle] at hh
      have hfront : ¬ HasToolTag front.flatten := fun hin =>
        htag (htext ▸ hasToolTag_prefix (by simp) hin)
      have ho : ((after front).receive chunk).phase = .content := by
        simp [phase, receive, opened_after hfront hj hle hh]
      rw [ho]
      exact hheld
  rw [after_append, step, settle, hall, if_neg (not_or.mpr ⟨htag, by simp [hquiet]⟩)]

/-- The beginning of a tool call is held until its start tag is complete. -/
theorem overlap_of_call {call front : Str} (hcall : TOOL_START_TAG <+: call)
    (hfront : front <+: call) (hne : front ≠ []) (hno : ¬ TOOL_START_TAG <:+: front) :
    stringsOverlap front TOOL_START_TAG = true := by
  rcases List.prefix_or_prefix_of_prefix hfront hcall with hshort | hlong
  · refine (stringsOverlap_iff (by decide)).mpr ⟨front.length, List.length_pos_iff.mpr hne,
      le_rfl, hshort.length_le, ?_⟩
    rw [Nat.sub_self, List.drop_zero]
    exact List.prefix_iff_eq_take.mp hshort
  · exact absurd hlong.isInfix hno

/-- The beginning of a tool call never becomes content. -/
theorem foldl_before_call {text call : Str} (hcall : TOOL_START_TAG <+: call)
    (hheld : held .content text = false) (chunks : List Str) {front : Str}
    (hfront : front ++ chunks.flatten <+: call) :
    (chunks.foldl step ⟨true, text ++ front, text⟩).content = text := by
  induction chunks generalizing front with
  | nil => rfl
  | cons chunk chunks ih =>
    have hnext : front ++ chunk ++ chunks.flatten <+: call := by simpa using hfront
    have hlt : front ++ chunk <+: call := (List.prefix_append _ _).trans hnext
    have hstep : (⟨true, text ++ front, text⟩ : Channel).step chunk =
        ⟨true, text ++ (front ++ chunk), text⟩ := by
      rw [step, settle]
      split
      · simp [receive]
      next hquiet =>
        obtain ⟨hnone, hquiet⟩ := not_or.mp hquiet
        simp only [receive, List.append_assoc, phase, if_true, Bool.not_eq_true] at hnone hquiet
        by_cases hnil : front ++ chunk = []
        · simp [receive, hnil]
        · exfalso
          have hno : ¬ TOOL_START_TAG <:+: front ++ chunk := fun hin =>
            hnone (Or.inl (hin.trans (List.suffix_append _ _).isInfix))
          have hover := overlap_of_call hcall hlt hnil hno
          have hclear : stringsOverlap text TOOL_START_TAG = false := by
            simp only [held, Bool.or_eq_false_iff] at hheld
            exact hheld.1.1
          simp only [held, stringsOverlap_append (by decide) hclear, hover, Bool.true_or] at hquiet
          cases hquiet
    rw [List.foldl_cons, hstep]
    exact ih hnext

end Channel

variable (env : Environment) (n : Nat)

theorem initial_listening : Listening (initial n).toolState {} (initial n) where
  split := rfl
  phase := rfl
  unopened _ := rfl
  noTag := by decide
  clear := by decide
  toolState := rfl
  running := rfl
  visible := rfl

/-- The stop in the tool phase adds no content. -/
theorem stop_in_tool {tool : Parser} {ch : Channel} {t : RouteState} {ds : List Delta}
    (hend : Ended env tool ch ds t) (htag : HasToolTag ch.text) :
    ∃ es u, (qwen3Route env).Runs t [([], .stop)] es u ∧ contentText es = [] := by
  rcases hend with ⟨hn, _⟩ | ⟨_, hdeliver, _⟩
  · exact absurd htag hn
  · obtain ⟨u, hstop, _⟩ := hdeliver.call env [] .stop
    have hcalls := consume_onlyCalls env (p := t.toolState) (by simp [hdeliver.drained, OnlyCalls]) [] .stop
    exact ⟨_, u, hstop, hcalls.texts.1⟩

/-- Without `<think>` the content is what the channel gives out. -/
theorem generation_content {chunks : List Str} (hthink : ¬ startTag <:+: chunks.flatten)
    (htag : HasToolTag chunks.flatten) :
    ∃ ds t, (qwen3Route env).Runs (initial n) (generation chunks) ds t ∧
      contentText ds = (Channel.after chunks).content := by
  obtain ⟨ds, t, hrun, hcontent, _, hend⟩ := (initial_listening n).runs env rfl (by decide) chunks
    (Or.inr hthink)
  obtain ⟨es, u, hstop, hnone⟩ := stop_in_tool env hend (by simpa using htag)
  refine ⟨ds ++ es, u, hrun.append hstop, ?_⟩
  rw [contentText_append, hnone, List.append_nil]
  exact hcontent

section Claim

variable {text call : Str} {chunks : List Str}

/-- A start tag of the call cannot be completed by the text before it. -/
theorem think_before_call (htext : ¬ startTag <:+: text) (hcall : TOOL_START_TAG <+: call)
    (hn : ¬ startTag <:+: call) : ¬ startTag <:+: text ++ call := by
  obtain ⟨rest, rfl⟩ := hcall
  have hclean : Occurrence.Clean TOOL_START_TAG startTag := by decide
  rw [hclean.infix_append]
  exact not_or.mpr ⟨htext, hn⟩

theorem released_content (htag : ¬ HasToolTag text) (hthink : ¬ startTag <:+: text)
    (hcall : TOOL_START_TAG <+: call) (hcut : chunks.flatten = text ++ call)
    (hrel : Released text chunks) :
    ∃ ds t, (qwen3Route env).Runs (initial n) (generation chunks) ds t ∧ contentText ds = text := by
  obtain ⟨k, hk, hle, htake, hheld, hopen⟩ := hrel
  have hdrop : (chunks.drop k).flatten = call := by
    have hsplit : (chunks.take k).flatten ++ (chunks.drop k).flatten = text ++ call := by
      rw [← List.flatten_append, List.take_append_drop, hcut]
    rw [htake] at hsplit
    exact List.append_cancel_left hsplit
  have hlen : (chunks.take k).length = k := by simp [hle]
  have hafter : Channel.after (chunks.take k) = ⟨true, text, text⟩ := by
    refine Channel.after_of_released ?_ htake htag hheld (hopen.imp id ?_)
    · intro hnil
      rw [hnil, List.length_nil] at hlen
      omega
    · intro ⟨j, hj, hlt, hh⟩
      refine ⟨j, hj, by omega, ?_⟩
      rwa [List.take_take, Nat.min_eq_left hlt.le]
  obtain ⟨ds, t, hrun, hcontent, _, hend⟩ := (initial_listening n).runs env rfl (by decide)
    (chunks.take k) (Or.inr (by simpa [htake] using hthink))
  have hch : (chunks.take k).foldl Channel.step {} = ⟨true, text, text⟩ := hafter
  rw [hch] at hcontent hend
  rcases hend with ⟨_, hlisten, _⟩ | ⟨hin, _⟩
  · obtain ⟨es, u, hrun', hcontent', _, hend'⟩ := hlisten.runs env rfl htag (chunks.drop k) (Or.inl rfl)
    have hnil : [] ++ (chunks.drop k).flatten <+: call := by simp [hdrop]
    have hstay := Channel.foldl_before_call hcall hheld (chunks.drop k) hnil
    rw [List.append_nil] at hstay
    have htag' : HasToolTag ((chunks.drop k).foldl Channel.step ⟨true, text, text⟩).text := by
      rw [Channel.foldl_text, hdrop]
      exact Or.inl (hcall.isInfix.trans (List.suffix_append _ _).isInfix)
    obtain ⟨fs, v, hstop, hnone⟩ := stop_in_tool env hend' htag'
    have hrest : contentText es = [] := List.append_cancel_left
      (hcontent'.trans (hstay.trans (List.append_nil text).symm))
    have hall := (hrun.append hrun').append hstop
    rw [← List.map_append, List.take_append_drop] at hall
    refine ⟨_, v, hall, ?_⟩
    rw [contentText_append, contentText_append, hrest, hnone, List.append_nil, List.append_nil]
    exact hcontent
  · exact absurd hin htag

/-- Before a call nothing becomes content unless a chunk ends where it was released. -/
theorem released_of_content (hcontent : (Channel.after chunks).content = text) : text = [] ∨ Released text chunks := by
  obtain ⟨_, _, hrel⟩ := Channel.after_released chunks
  rwa [hcontent] at hrel

theorem no_content_of_call (hcall : TOOL_START_TAG <+: chunks.flatten) :
    (Channel.after chunks).content = [] := by
  obtain ⟨_, hno, hrel⟩ := Channel.after_released chunks
  rcases hrel with hnil | ⟨k, _, _, htake, hheld, _⟩
  · exact hnil
  · by_contra hne
    have hpre : (Channel.after chunks).content <+: chunks.flatten := by
      rw [← htake]
      exact ⟨(chunks.drop k).flatten, by rw [← List.flatten_append, List.take_append_drop]⟩
    have hover := Channel.overlap_of_call hcall hpre hne fun hin => hno (Or.inl hin)
    simp only [held, hover, Bool.true_or] at hheld
    cases hheld

end Claim

end ModelServer.Qwen3Route
