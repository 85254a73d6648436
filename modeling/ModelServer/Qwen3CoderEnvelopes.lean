import ModelServer.Qwen3CoderChunks

namespace ModelServer.Qwen3CoderToolParser

open Occurrence

namespace Impl

variable (rj : RapidJson) (ids ids' : RandomIds) (types : ToolsParameterTypeMap)

/-- Two parsers that go on in the same way: what has been read, the ids drawn
and a parameter name no longer in use may differ. -/
structure Alike (p q : Impl) : Prop where
  currentState : q.currentState = p.currentState
  currentFunction : q.currentFunction = p.currentFunction
  unread : q.unread = p.unread
  parameterName : p.currentState = .insideParameter → q.currentParameterName = p.currentParameterName

theorem upTo_unread (p : Impl) (i : Nat) :
    p.upTo (p.lastProcessedPosition + i) = p.unread.take i := by
  simp [upTo, substr, unread]

theorem fire_unread {p : Impl} {m : Str} (i : Nat) (calls : List ToolCall)
    (hm : m ∈ (delimiters p.currentState).marks) :
    (fire rj ids types p m i calls).1.unread =
      p.unread.drop (i + (if m = TOOL_START_TAG ∧ p.currentState ≠ .content then 0 else m.length)) := by
  simp only [unread, fire_streamContent, fire_position rj ids types p m i calls hm, List.drop_drop,
    Nat.add_assoc]

theorem fire_alike {p q : Impl} (h : Alike p q) {m : Str} {i : Nat}
    (hm : m ∈ (delimiters p.currentState).marks) (calls calls' : List ToolCall) :
    Alike (fire rj ids types p m i calls).1 (fire rj ids' types q m i calls').1 := by
  have hup : q.upTo (q.lastProcessedPosition + i) = p.upTo (p.lastProcessedPosition + i) := by
    rw [upTo_unread, upTo_unread, h.unread]
  have hread : (fire rj ids' types q m i calls').1.unread = (fire rj ids types p m i calls).1.unread := by
    rw [fire_unread rj ids types i calls hm, fire_unread rj ids' types i calls' (by rwa [h.currentState]),
      h.unread, h.currentState]
  have hf := h.currentFunction
  have hname := h.parameterName
  refine ⟨?_, ?_, hread, ?_⟩
  all_goals
    unfold fire
    simp only [h.currentState]
    cases hs : p.currentState <;>
      grind [openToolCall, openBareFunction, openFunction, nameFunction, nameParameter,
        closeParameter, openParameter, closeFunction, closeToolCall, abort, pushBegin, pushEnd]

theorem fire_alike_calls {p q : Impl} (h : Alike p q) (m : Str) (i j : Nat)
    {calls calls' : List ToolCall}
    (hcalls : calls'.map ToolCall.invocation = calls.map ToolCall.invocation) :
    (fire rj ids' types q m j calls').2.map ToolCall.invocation =
      (fire rj ids types p m i calls).2.map ToolCall.invocation := by
  unfold fire
  rw [h.currentState]
  cases hs : p.currentState
  case afterFunction =>
    simp only
    split
    · simp only [completedCall, h.currentFunction, List.map_append, hcalls]
      split <;> rfl
    · exact hcalls
  all_goals simpa using hcalls

theorem parseAll_alike {p q : Impl} (h : Alike p q) :
    Alike (p.parseAll rj ids types).1 (q.parseAll rj ids' types).1 ∧
      (q.parseAll rj ids' types).2.map ToolCall.invocation =
        (p.parseAll rj ids types).2.map ToolCall.invocation := by
  have hsim : ∃ t, Loop.Exits (parseBody rj ids' types) (q, []) t ∧
      Alike (p.parseAll rj ids types).1 t.1 ∧
        t.2.map ToolCall.invocation = (p.parseAll rj ids types).2.map ToolCall.invocation := by
    refine (parseAll_exits rj ids types p).simulate
      (R := fun s (s' : Impl × List ToolCall) => Alike s.1 s'.1 ∧
        s'.2.map ToolCall.invocation = s.2.map ToolCall.invocation)
      (Q := fun s (s' : Impl × List ToolCall) => Alike s.1 s'.1 ∧
        s'.2.map ToolCall.invocation = s.2.map ToolCall.invocation) ?_ ?_ ?_
    · intro s s' t ⟨hr, hc⟩ ht
      obtain ⟨m, i, he, rfl⟩ := parseBody_inl rj ids types ht
      have hm := he.mem
      rw [← hr.currentState, ← hr.unread] at he
      exact ⟨_, parseBody_fires rj ids' types he _, fire_alike rj ids ids' types hr hm _ _,
        fire_alike_calls rj ids ids' types hr m i i hc⟩
    · intro s s' r ⟨hr, hc⟩ ht
      obtain ⟨hq, rfl⟩ := parseBody_inr rj ids types ht
      refine ⟨s', parseBody_quiet rj ids' types ?_ _, hr, hc⟩
      unfold Quiet
      rwa [hr.currentState, hr.unread]
    · exact ⟨h, rfl⟩
  obtain ⟨⟨r, calls⟩, he, ha, hc⟩ := hsim
  rw [parseAll_eq rj ids' types he]
  exact ⟨ha, hc⟩

theorem parseAll_fire {p : Impl} {m : Str} {i : Nat}
    (h : Earliest (delimiters p.currentState) p.unread m i) :
    p.parseAll rj ids types =
      let (q, calls) := fire rj ids types p m i []
      ((q.parseAll rj ids types).1, calls ++ (q.parseAll rj ids types).2) := by
  have hrest := parseAll_exits rj ids types (fire rj ids types p m i []).1
  exact parseAll_eq rj ids types
    (.again (parseBody_fires rj ids types h []) (exits_calls rj ids types hrest))

/-- Outside a call nothing of a function is left over. -/
def Cleared (p : Impl) : Prop := p.currentState = .content → p.currentFunction = {}

theorem fire_cleared (p : Impl) (m : Str) (i : Nat) (calls : List ToolCall) :
    (fire rj ids types p m i calls).1.Cleared := by
  unfold fire Cleared
  cases p.currentState <;>
    grind [openToolCall, openBareFunction, openFunction, nameFunction, nameParameter, closeParameter,
      openParameter, closeFunction, closeToolCall, abort]

theorem parseAll_cleared {p : Impl} (hp : p.Cleared) : (p.parseAll rj ids types).1.Cleared := by
  refine (parseAll_exits rj ids types p).invariant (I := fun s => s.1.Cleared)
    (Q := fun t => t.1.Cleared) ?_ ?_ hp
  · intro s t _ ht
    obtain ⟨m, i, _, rfl⟩ := parseBody_inl rj ids types ht
    exact fire_cleared rj ids types _ m i _
  · intro s r hs hr
    obtain ⟨_, rfl⟩ := parseBody_inr rj ids types hr
    exact hs

theorem openToolCall_unread {p : Impl} {pre rest : Str}
    (h : p.unread = pre ++ (TOOL_START_TAG ++ rest)) :
    (p.openToolCall (p.lastProcessedPosition + pre.length)).unread = rest := by
  have hd : (p.openToolCall (p.lastProcessedPosition + pre.length)).unread =
      p.unread.drop (pre.length + TOOL_START_TAG.length) := by
    simp [unread, openToolCall, pushBegin, List.drop_drop, Nat.add_assoc]
  rw [hd, h, ← List.drop_drop, List.drop_left, List.drop_left]

theorem abort_unread {p : Impl} {pre rest : Str} (h : p.unread = pre ++ rest) :
    (p.abort (p.lastProcessedPosition + pre.length)).unread = rest := by
  have hd : (p.abort (p.lastProcessedPosition + pre.length)).unread = p.unread.drop pre.length := by
    simp [unread, abort, pushEnd, List.drop_drop]
  rw [hd, h, List.drop_left]

theorem fire_start_content {p : Impl} (hs : p.currentState = .content) (i : Nat)
    (calls : List ToolCall) :
    fire rj ids types p TOOL_START_TAG i calls =
      (p.openToolCall (p.lastProcessedPosition + i), calls) := by
  simp [fire, hs]

theorem fire_start_abort {p : Impl} (hs : p.currentState ≠ .content) (i : Nat)
    (calls : List ToolCall) :
    fire rj ids types p TOOL_START_TAG i calls = (p.abort (p.lastProcessedPosition + i), calls) := by
  cases h : p.currentState <;> simp_all +decide [fire]

/-- From any quiet state, text that begins with `<tool_call>` is read as by a fresh parser. -/
theorem parseAll_envelope {p : Impl} (hw : p.WellPlaced) (hq : p.Quiet) (hc : p.Cleared) (n : Nat)
    (rest : Str) :
    Alike ((p.append (TOOL_START_TAG ++ rest)).parseAll rj ids types).1
        (((fresh n).append (TOOL_START_TAG ++ rest)).parseAll rj ids' types).1 ∧
      (((fresh n).append (TOOL_START_TAG ++ rest)).parseAll rj ids' types).2.map ToolCall.invocation =
        ((p.append (TOOL_START_TAG ++ rest)).parseAll rj ids types).2.map ToolCall.invocation := by
  have hread := hw.unread_append (TOOL_START_TAG ++ rest)
  have hfirst : Earliest (delimiters (p.append (TOOL_START_TAG ++ rest)).currentState)
      (p.append (TOOL_START_TAG ++ rest)).unread TOOL_START_TAG p.unread.length := by
    rw [hread]
    exact earliest_after (toolStart_mem _) (toolStart_clean _) hq
  have hfresh : ((fresh n).append (TOOL_START_TAG ++ rest)).unread = [] ++ (TOOL_START_TAG ++ rest) := rfl
  by_cases hs : p.currentState = .content
  · -- both open a call
    have hfirst' : Earliest (delimiters ((fresh n).append (TOOL_START_TAG ++ rest)).currentState)
        ((fresh n).append (TOOL_START_TAG ++ rest)).unread TOOL_START_TAG 0 :=
      earliest_after (toolStart_mem _) (toolStart_clean _) (fresh_quiet n)
    rw [parseAll_fire rj ids types hfirst, parseAll_fire rj ids' types hfirst',
      fire_start_content rj ids types (p := p.append _) hs, fire_start_content rj ids' types rfl]
    refine parseAll_alike rj ids ids' types ⟨rfl, (hc hs).symm, ?_, by simp⟩
    rw [openToolCall_unread hread]
    exact openToolCall_unread hfresh
  · -- the open call is given up before the tag, which is then still unread
    rw [parseAll_fire rj ids types hfirst, fire_start_abort rj ids types (p := p.append _) hs]
    refine parseAll_alike rj ids ids' types ⟨rfl, rfl, ?_, by simp⟩
    rw [abort_unread hread]
    exact hfresh

theorem fresh_cleared (n : Nat) : (fresh n).Cleared := fun _ => rfl

theorem WellPlaced.append {p : Impl} (hp : p.WellPlaced) (x : Str) : (p.append x).WellPlaced := by
  have := hp
  simp only [WellPlaced, Impl.append, List.length_append] at *
  omega

theorem finalizeOnGenerationEnd_alike {p q : Impl} (hw : p.WellPlaced) (hw' : q.WellPlaced)
    (h : Alike p q) :
    (finalizeOnGenerationEnd rj ids' types q).1.map (List.map ToolCall.invocation) =
      (finalizeOnGenerationEnd rj ids types p).1.map (List.map ToolCall.invocation) := by
  have happ : Alike (p.append TOOL_END_TAG) (q.append TOOL_END_TAG) := by
    refine ⟨h.currentState, h.currentFunction, ?_, h.parameterName⟩
    rw [hw.unread_append, hw'.unread_append, h.unread]
  obtain ⟨_, hcalls⟩ := parseAll_alike rj ids ids' types happ
  by_cases hs : p.currentState = .afterFunction
  · simp only [finalizeOnGenerationEnd, h.currentState, hs, ne_eq, not_true_eq_false, if_false,
      orNullopt_map]
    rw [hcalls]
  · simp [finalizeOnGenerationEnd, h.currentState, hs]

/-- Whatever came before, an envelope is read as if it stood alone: the calls of a text
that ends in one are those of the text before it and those of the envelope, also
when the generation ends there. -/
theorem parseChunk_envelope (ids₁ ids₂ : RandomIds) (n n₁ n₂ : Nat) (text rest : Str) :
    let envelope := TOOL_START_TAG ++ rest
    let whole := parseChunk rj ids types (fresh n) (text ++ envelope)
    let before := parseChunk rj ids₁ types (fresh n₁) text
    let alone := parseChunk rj ids₂ types (fresh n₂) envelope
    (whole.1.getD []).map ToolCall.invocation =
        (before.1.getD []).map ToolCall.invocation ++ (alone.1.getD []).map ToolCall.invocation ∧
      (finalizeOnGenerationEnd rj ids types whole.2).1.map (List.map ToolCall.invocation) =
        (finalizeOnGenerationEnd rj ids₂ types alone.2).1.map (List.map ToolCall.invocation) := by
  intro envelope whole before alone
  have hwhole := parseChunk_eq rj ids types (fresh_quiet n) (text ++ envelope)
  have hbefore := parseChunk_eq rj ids₁ types (fresh_quiet n₁) text
  have halone := parseChunk_eq rj ids₂ types (fresh_quiet n₂) envelope
  have hw := (fresh_wellPlaced n).append text
  have hwhole' := parseAll_append rj ids types hw envelope
  rw [append_append, ← hwhole] at hwhole'
  -- the same text read with the ids of the whole run
  obtain ⟨_, htext⟩ := parseAll_sameButIds rj ids types ids₁ ((fresh n).append text) n₁
  have hfresh : ({ (fresh n).append text with drawnIds := n₁ } : Impl) = (fresh n₁).append text := rfl
  rw [hfresh, ← hbefore] at htext
  have hpc := parseAll_cleared rj ids types (p := (fresh n).append text) (fresh_cleared n)
  cases hmid : ((fresh n).append text).parseAll rj ids types with
  | mk p calls =>
  obtain ⟨hpw, hpq⟩ := parseAll_settled rj ids types hw hmid
  rw [hmid] at hwhole' hpc htext
  obtain ⟨halike, hcalls⟩ := parseAll_envelope rj ids ids₂ types hpw hpq hpc n₂ rest
  obtain ⟨hstate, hfound⟩ := Prod.mk.inj hwhole'
  have hw' := (parseAll_settled rj ids types ((fresh_wellPlaced n).append _) hwhole.symm).1
  have hw₂ := (parseAll_settled rj ids₂ types ((fresh_wellPlaced n₂).append _) halone.symm).1
  rw [show TOOL_START_TAG ++ rest = envelope from rfl, ← halone] at hcalls halike
  refine ⟨?_, ?_⟩
  · have hfound' : whole.1.getD [] = calls ++ ((p.append envelope).parseAll rj ids types).2 := hfound
    rw [hfound', List.map_append]
    exact congrArg₂ _ htext.symm hcalls.symm
  · have hstate' : whole.2 = ((p.append envelope).parseAll rj ids types).1 := hstate
    rw [← hstate'] at halike
    exact (finalizeOnGenerationEnd_alike rj ids ids₂ types hw' hw₂ halike).symm

end Impl

end ModelServer.Qwen3CoderToolParser
