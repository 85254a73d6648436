import ModelServer.Qwen3CoderDelimiters

namespace ModelServer.Qwen3CoderToolParser

open Occurrence

namespace Impl

variable (rj : RapidJson) (ids : RandomIds) (types : ToolsParameterTypeMap)

/-- The unread text holds no delimiter of the current state. -/
def Quiet (p : Impl) : Prop := ∀ m ∈ (delimiters p.currentState).marks, ∀ i, ¬ At m p.unread i

def WellPlaced (p : Impl) : Prop := p.lastProcessedPosition ≤ p.streamContent.length

theorem parseBody_fires {p : Impl} {m : Str} {i : Nat}
    (h : Earliest (delimiters p.currentState) p.unread m i) (calls : List ToolCall) :
    parseBody rj ids types (p, calls) = .inl (fire rj ids types p m i calls) := by
  simp [parseBody, parseUntilStateChange_fires rj ids types h]

theorem parseBody_quiet {p : Impl} (h : p.Quiet) (calls : List ToolCall) :
    parseBody rj ids types (p, calls) = .inr (p, calls) := by
  simp [parseBody, parseUntilStateChange_quiet rj ids types h]

theorem fires_or_quiet (p : Impl) :
    (∃ m i, Earliest (delimiters p.currentState) p.unread m i) ∨ p.Quiet :=
  earliest_or_none _ _

theorem parseBody_inl {s t : Impl × List ToolCall} (h : parseBody rj ids types s = .inl t) :
    ∃ m i, Earliest (delimiters s.1.currentState) s.1.unread m i ∧
      t = fire rj ids types s.1 m i s.2 := by
  rcases s.1.fires_or_quiet with ⟨m, i, he⟩ | hq
  · rw [parseBody_fires rj ids types he] at h
    exact ⟨m, i, he, (Sum.inl.inj h).symm⟩
  · rw [parseBody_quiet rj ids types hq] at h
    cases h

theorem parseBody_inr {s t : Impl × List ToolCall} (h : parseBody rj ids types s = .inr t) :
    s.1.Quiet ∧ t = s := by
  rcases s.1.fires_or_quiet with ⟨m, i, he⟩ | hq
  · rw [parseBody_fires rj ids types he] at h
    cases h
  · rw [parseBody_quiet rj ids types hq] at h
    exact ⟨hq, (Sum.inr.inj h).symm⟩

section Fire

variable (p : Impl) (m : Str) (i : Nat) (calls : List ToolCall)

@[simp] theorem fire_streamContent :
    (fire rj ids types p m i calls).1.streamContent = p.streamContent := by
  unfold fire
  cases p.currentState <;> grind [openToolCall, openBareFunction, openFunction, nameFunction,
    openParameter, closeFunction, nameParameter, closeParameter, closeToolCall, abort, pushBegin,
    pushEnd]

/-- Every delimiter is consumed, except a `<tool_call>` that ends an unfinished call. -/
theorem fire_position (hm : m ∈ (delimiters p.currentState).marks) :
    (fire rj ids types p m i calls).1.lastProcessedPosition =
      p.lastProcessedPosition + i +
        (if m = TOOL_START_TAG ∧ p.currentState ≠ .content then 0 else m.length) := by
  revert m
  cases hs : p.currentState <;>
    simp +decide [delimiters, marks, fire, hs, openToolCall, openBareFunction, openFunction,
      nameFunction, openParameter, closeFunction, nameParameter, closeParameter, closeToolCall, abort,
      Nat.add_assoc]

/-- The calls of a pass are put after those before it. -/
theorem fire_calls :
    fire rj ids types p m i calls =
      ((fire rj ids types p m i []).1, calls ++ (fire rj ids types p m i []).2) := by
  unfold fire
  cases p.currentState <;> grind

theorem fire_abort_state (hs : p.currentState ≠ .content) :
    (fire rj ids types p TOOL_START_TAG i calls).1.currentState = .content := by
  cases h : p.currentState <;> simp_all +decide [fire]

end Fire

section Append

variable {p : Impl} {m : Str} {i : Nat} (x : Str)

theorem WellPlaced.unread_append (hp : p.WellPlaced) : (p.append x).unread = p.unread ++ x := by
  simp [unread, append, List.drop_append_of_le_length hp]

theorem upTo_append {pos : Nat} (hp : p.WellPlaced) (hpos : pos ≤ p.streamContent.length) :
    (p.append x).upTo pos = p.upTo pos := by
  simp only [upTo, append, substr, List.drop_append_of_le_length hp]
  exact List.take_append_of_le_length (by simp only [List.length_drop]; omega)

theorem earliest_bound (h : Earliest (delimiters p.currentState) p.unread m i) :
    p.lastProcessedPosition + i + m.length ≤ p.streamContent.length := by
  have hl := h.length_le
  have hpos := List.length_pos_iff.mpr ((delimiters p.currentState).nonempty m h.mem)
  simp only [unread, List.length_drop] at hl
  omega

theorem fire_wellPlaced (h : Earliest (delimiters p.currentState) p.unread m i)
    (calls : List ToolCall) : (fire rj ids types p m i calls).1.WellPlaced := by
  have hb := earliest_bound h
  rw [WellPlaced, fire_streamContent, fire_position rj ids types p m i calls h.mem]
  split <;> omega

theorem fire_remaining (h : Earliest (delimiters p.currentState) p.unread m i)
    (calls : List ToolCall) : (fire rj ids types p m i calls).1.remaining < p.remaining := by
  have hb := earliest_bound h
  have hpos := List.length_pos_iff.mpr ((delimiters p.currentState).nonempty m h.mem)
  have hstate : ∀ q : Impl, (if q.currentState = .content then 0 else 1) ≤ 1 := by
    intro q
    split <;> omega
  have hq := hstate (fire rj ids types p m i calls).1
  unfold remaining
  rw [fire_streamContent, fire_position rj ids types p m i calls h.mem]
  by_cases ha : m = TOOL_START_TAG ∧ p.currentState ≠ .content
  · obtain ⟨rfl, hs⟩ := ha
    rw [if_pos ⟨rfl, hs⟩, if_pos (fire_abort_state rj ids types p i calls hs), if_neg hs]
    omega
  · rw [if_neg ha]
    omega

/-- A delimiter that has been met is met in the same way when more text has arrived. -/
theorem fire_append (hp : p.WellPlaced)
    (h : Earliest (delimiters p.currentState) p.unread m i) (calls : List ToolCall) :
    fire rj ids types (p.append x) m i calls =
      ((fire rj ids types p m i calls).1.append x, (fire rj ids types p m i calls).2) := by
  have hb := earliest_bound h
  have hpos : p.lastProcessedPosition + i ≤ p.streamContent.length := by omega
  have hup := upTo_append x hp hpos
  unfold fire
  simp only [show (p.append x).currentState = p.currentState from rfl,
    show (p.append x).lastProcessedPosition = p.lastProcessedPosition from rfl]
  cases p.currentState <;>
    simp only [nameFunction, nameParameter, closeParameter, hup] <;> grind [append, openToolCall, openBareFunction, openFunction, 
    openParameter, closeFunction, closeToolCall, abort, pushBegin,
    pushEnd, completedCall]

end Append

section Feed

theorem parseAll_exits (p : Impl) :
    Loop.Exits (parseBody rj ids types) (p, []) (p.parseAll rj ids types) := by
  refine Loop.run_exits (fun s => s.1.remaining) ?_ _ (Nat.lt_succ_self _)
  intro s t h
  obtain ⟨m, i, he, rfl⟩ := parseBody_inl rj ids types h
  exact fire_remaining rj ids types he _

theorem parseAll_eq {p q : Impl} {calls : List ToolCall}
    (h : Loop.Exits (parseBody rj ids types) (p, []) (q, calls)) :
    p.parseAll rj ids types = (q, calls) :=
  (parseAll_exits rj ids types p).unique h

theorem exits_quiet {s t : Impl × List ToolCall}
    (h : Loop.Exits (parseBody rj ids types) s t) : t.1.Quiet := by
  refine h.invariant (I := fun _ => True) (Q := fun t => t.1.Quiet) (fun _ _ _ _ => trivial) ?_ trivial
  intro s r _ hr
  obtain ⟨hq, rfl⟩ := parseBody_inr rj ids types hr
  exact hq

theorem exits_wellPlaced {s t : Impl × List ToolCall}
    (h : Loop.Exits (parseBody rj ids types) s t) (hs : s.1.WellPlaced) : t.1.WellPlaced := by
  refine h.invariant (I := fun s => s.1.WellPlaced) (Q := fun t => t.1.WellPlaced) ?_ ?_ hs
  · intro s t _ ht
    obtain ⟨m, i, he, rfl⟩ := parseBody_inl rj ids types ht
    exact fire_wellPlaced rj ids types he _
  · intro s r hs hr
    obtain ⟨_, rfl⟩ := parseBody_inr rj ids types hr
    exact hs

/-- The calls found before a run are not touched by it. -/
theorem exits_calls {p q : Impl} {calls found : List ToolCall}
    (h : Loop.Exits (parseBody rj ids types) (p, []) (q, found)) :
    Loop.Exits (parseBody rj ids types) (p, calls) (q, calls ++ found) := by
  have hsim : ∃ t, Loop.Exits (parseBody rj ids types) (p, calls) t ∧
      t.1 = q ∧ t.2 = calls ++ found := by
    refine h.simulate (R := fun s (s' : Impl × List ToolCall) => s'.1 = s.1 ∧ s'.2 = calls ++ s.2)
      (Q := fun s (s' : Impl × List ToolCall) => s'.1 = s.1 ∧ s'.2 = calls ++ s.2) ?_ ?_ ?_
    · intro s s' t ⟨hp, hc⟩ ht
      obtain ⟨m, i, he, rfl⟩ := parseBody_inl rj ids types ht
      rw [← hp] at he
      refine ⟨_, parseBody_fires rj ids types he _, ?_, ?_⟩
      · rw [fire_calls, hp, fire_calls rj ids types _ _ _ s.2]
      · rw [fire_calls, hp, fire_calls rj ids types _ _ _ s.2, hc, List.append_assoc]
    · intro s s' r ⟨hp, hc⟩ hr
      obtain ⟨hq, rfl⟩ := parseBody_inr rj ids types hr
      rw [← hp] at hq
      exact ⟨s', parseBody_quiet rj ids types hq _, hp, hc⟩
    · exact ⟨rfl, (List.append_nil _).symm⟩
  obtain ⟨⟨q', found'⟩, he, hq, hf⟩ := hsim
  dsimp only at hq hf
  rwa [hq, hf] at he

/-- Text that arrives in two parts is read as if it had arrived at once. -/
theorem parseAll_append {p : Impl} (hp : p.WellPlaced) (x : Str) :
    (p.append x).parseAll rj ids types =
      let (q, first) := p.parseAll rj ids types
      let (r, second) := (q.append x).parseAll rj ids types
      (r, first ++ second) := by
  have hfirst := parseAll_exits rj ids types p
  have hsecond := parseAll_exits rj ids types ((p.parseAll rj ids types).1.append x)
  refine parseAll_eq rj ids types ?_
  refine hfirst.extend (I := fun s => s.1.WellPlaced) (fun s (y : Str) => (s.1.append y, s.2))
    ?_ ?_ hp (exits_calls rj ids types hsecond)
  · intro s r hr
    exact (parseBody_inr rj ids types hr).2
  · intro s t hs ht
    obtain ⟨m, i, he, rfl⟩ := parseBody_inl rj ids types ht
    have he' := he.append x
    rw [← hs.unread_append x] at he'
    refine ⟨fire_wellPlaced rj ids types he _, ?_⟩
    rw [parseBody_fires rj ids types he', fire_append rj ids types x hs he]

theorem parseAll_quiet {p : Impl} (hq : p.Quiet) : p.parseAll rj ids types = (p, []) :=
  parseAll_eq rj ids types (.leave (parseBody_quiet rj ids types hq []))

theorem append_nil (p : Impl) : p.append [] = p := by simp [append]

theorem append_append (p : Impl) (x y : Str) : (p.append x).append y = p.append (x ++ y) := by
  simp [append]

theorem parseChunk_eq {p : Impl} (hq : p.Quiet) (chunk : Str) :
    ((parseChunk rj ids types p chunk).2, (parseChunk rj ids types p chunk).1.getD []) =
      (p.append chunk).parseAll rj ids types := by
  by_cases hc : chunk = []
  · subst hc
    simp [parseChunk, append_nil, parseAll_quiet rj ids types hq]
  · simp [parseChunk, List.isEmpty_iff, hc]

/-- The chunks in order; the calls returned are collected. -/
def parseChunks (p : Impl) : List Str → List ToolCall × Impl
  | [] => ([], p)
  | chunk :: chunks =>
    let (calls, q) := parseChunk rj ids types p chunk
    let (more, r) := parseChunks q chunks
    (calls.getD [] ++ more, r)

theorem parseAll_settled {p q : Impl} {calls : List ToolCall} (hp : p.WellPlaced)
    (h : p.parseAll rj ids types = (q, calls)) : q.WellPlaced ∧ q.Quiet := by
  have he := parseAll_exits rj ids types p
  rw [h] at he
  exact ⟨exits_wellPlaced rj ids types he hp, exits_quiet rj ids types he⟩

theorem parseChunks_flatten {p : Impl} (hp : p.WellPlaced) (hq : p.Quiet) (chunks : List Str) :
    ((parseChunks rj ids types p chunks).2, (parseChunks rj ids types p chunks).1) =
      (p.append chunks.flatten).parseAll rj ids types := by
  induction chunks generalizing p with
  | nil =>
    rw [List.flatten_nil, append_nil]
    exact (parseAll_quiet rj ids types hq).symm
  | cons chunk chunks ih =>
    have hchunk := parseChunk_eq rj ids types hq chunk
    have happ : (p.append chunk).WellPlaced := by
      have := hp
      simp only [WellPlaced, append, List.length_append] at *
      omega
    obtain ⟨hp', hq'⟩ := parseAll_settled rj ids types happ hchunk.symm
    have hrest := ih hp' hq'
    rw [List.flatten_cons, ← append_append, parseAll_append rj ids types happ, ← hchunk]
    simp only
    rw [← hrest]
    rfl

end Feed

section Fresh

/-- A parser that has read nothing, after `n` random ids. -/
def fresh (n : Nat) : Impl := { drawnIds := n }

theorem fresh_wellPlaced (n : Nat) : (fresh n).WellPlaced := Nat.zero_le _

theorem fresh_quiet (n : Nat) : (fresh n).Quiet := by
  intro m hm i hat
  have hl := hat.length_le ((delimiters _).nonempty m hm)
  have := List.length_pos_iff.mpr ((delimiters _).nonempty m hm)
  simp only [fresh, unread, List.drop_nil, List.length_nil] at hl
  omega

end Fresh

section Redraw

variable (ids' : RandomIds)

/-- Two parsers that differ in their random ids at most. -/
def SameButIds (s t : Impl × List ToolCall) : Prop :=
  (∃ n, t.1 = { s.1 with drawnIds := n }) ∧
    t.2.map ToolCall.invocation = s.2.map ToolCall.invocation

theorem fire_sameButIds {s t : Impl × List ToolCall} (h : SameButIds s t) (m : Str) (i : Nat) :
    SameButIds (fire rj ids types s.1 m i s.2) (fire rj ids' types t.1 m i t.2) := by
  obtain ⟨p, calls⟩ := s
  obtain ⟨p', calls'⟩ := t
  obtain ⟨⟨n, hp⟩, hc⟩ := h
  dsimp only at hp hc
  subst hp
  unfold fire
  cases hs : p.currentState
  case afterFunction =>
    simp only
    split
    · refine ⟨⟨_, rfl⟩, ?_⟩
      simp only [completedCall, List.map_append, hc]
      split <;> rfl
    · exact ⟨⟨n, rfl⟩, hc⟩
  all_goals
    refine ⟨⟨n, ?_⟩, ?_⟩
    · grind [append, openToolCall, openBareFunction, openFunction, nameFunction, nameParameter,
        closeParameter, upTo, openParameter, closeFunction, closeToolCall, abort, pushBegin, pushEnd]
    · simpa using hc

theorem parseAll_sameButIds (p : Impl) (n : Nat) :
    SameButIds (p.parseAll rj ids types) (parseAll rj ids' types { p with drawnIds := n }) := by
  have hsim : ∃ t, Loop.Exits (parseBody rj ids' types) ({ p with drawnIds := n }, []) t ∧
      SameButIds (p.parseAll rj ids types) t := by
    refine (parseAll_exits rj ids types p).simulate (R := SameButIds) (Q := SameButIds) ?_ ?_ ?_
    · intro s s' t hr ht
      obtain ⟨m, i, he, rfl⟩ := parseBody_inl rj ids types ht
      refine ⟨_, ?_, fire_sameButIds rj ids types ids' hr m i⟩
      obtain ⟨⟨n, hn⟩, _⟩ := hr
      exact parseBody_fires rj ids' types (by rw [hn]; exact he) _
    · intro s s' r hr ht
      obtain ⟨hq, rfl⟩ := parseBody_inr rj ids types ht
      obtain ⟨⟨n, hn⟩, hc⟩ := hr
      exact ⟨s', parseBody_quiet rj ids' types (by rw [hn]; exact hq) _, ⟨n, hn⟩, hc⟩
    · exact ⟨⟨n, rfl⟩, rfl⟩
  obtain ⟨⟨q, calls⟩, he, hs⟩ := hsim
  rwa [parseAll_eq rj ids' types he]

theorem finalizeOnGenerationEnd_sameButIds (p : Impl) (n : Nat) :
    (finalizeOnGenerationEnd rj ids' types { p with drawnIds := n }).1.map
        (List.map ToolCall.invocation) =
      (finalizeOnGenerationEnd rj ids types p).1.map (List.map ToolCall.invocation) := by
  by_cases hs : p.currentState = .afterFunction
  · obtain ⟨_, hcalls⟩ := parseAll_sameButIds rj ids types ids' (p.append TOOL_END_TAG) n
    simp only [finalizeOnGenerationEnd, hs, ne_eq, not_true_eq_false, if_false, orNullopt_map]
    rw [← hcalls, ← hs]
    rfl
  · simp [finalizeOnGenerationEnd, hs]

end Redraw

/-- However a text is cut, the calls found in it and the place the parser is left
at are those of the whole text in one chunk, whatever ids the two runs draw. -/
theorem parseChunks_same_as_whole (ids' : RandomIds) (n n' : Nat) (chunks : List Str) :
    let cut := parseChunks rj ids types (fresh n) chunks
    let whole := parseChunk rj ids' types (fresh n') chunks.flatten
    cut.1.map ToolCall.invocation = (whole.1.getD []).map ToolCall.invocation ∧
      cut.2.currentState = whole.2.currentState ∧
      cut.2.lastProcessedPosition = whole.2.lastProcessedPosition ∧
      cut.2.currentFunction.name = whole.2.currentFunction.name ∧
      cut.2.currentParameterName = whole.2.currentParameterName ∧
      (finalizeOnGenerationEnd rj ids types cut.2).1.map (List.map ToolCall.invocation) =
        (finalizeOnGenerationEnd rj ids' types whole.2).1.map (List.map ToolCall.invocation) := by
  intro cut whole
  have hcut := parseChunks_flatten rj ids types (fresh_wellPlaced n) (fresh_quiet n) chunks
  have hwhole := parseChunk_eq rj ids' types (fresh_quiet n') chunks.flatten
  have hsame := parseAll_sameButIds rj ids types ids' ((fresh n).append chunks.flatten) n'
  rw [← hcut] at hsame
  have hfresh : ({ (fresh n).append chunks.flatten with drawnIds := n' } : Impl) =
      (fresh n').append chunks.flatten := rfl
  rw [hfresh, ← hwhole] at hsame
  obtain ⟨⟨k, hk⟩, hcalls⟩ := hsame
  have hstate : whole.2 = { cut.2 with drawnIds := k } := hk
  rw [hstate]
  exact ⟨hcalls.symm, rfl, rfl, rfl, rfl,
    (finalizeOnGenerationEnd_sameButIds rj ids types ids' cut.2 k).symm⟩

end Impl

end ModelServer.Qwen3CoderToolParser
