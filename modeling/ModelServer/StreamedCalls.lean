import ModelServer.Minicpm5Calls
import ModelServer.OnyxCalls
import ModelServer.JsonText

namespace ModelServer

/-- For every text of calls, and every division into chunks none of which completes two calls: each call must be named by a
chunk that ends within it, or else its deltas are not the ones of the call. The first call of a MiniCPM5 generation needs no
such chunk. -/
theorem streamed_calls_reassemble (rj : RapidJson) (ids : RandomIds) (toolSchemas : ToolsSchemas) :
    (∀ written : Minicpm5ToolParser.WrittenText,
      (written.wholeCalls rj ids toolSchemas).map Prod.fst = written.calls.map (·.name) ∧
      ∀ chunks : List Str, chunks.flatten = written.text → (∀ chunk ∈ chunks, chunk ≠ []) →
        (written.timeline rj toolSchemas).OneAtATime chunks →
        ∃ deltas, Minicpm5ToolParser.generation rj ids toolSchemas chunks = .ok deltas ∧
          (SentDeltas.Reassembles (written.wholeCalls rj ids toolSchemas) (toolCallDeltas deltas) ↔
            ∀ i < written.calls.length, i = 0 ∨ (written.timeline rj toolSchemas).NamedBefore chunks i)) ∧
    ∀ written : OnyxToolParser.WrittenText,
      (written.wholeCalls rj ids toolSchemas).map Prod.fst = written.calls.map (·.name) ∧
      ∀ chunks : List Str, chunks.flatten = written.text → (∀ chunk ∈ chunks, chunk ≠ []) →
        (written.timeline rj toolSchemas).OneAtATime chunks →
        ∃ deltas, OnyxToolParser.generation rj ids toolSchemas chunks = .ok deltas ∧
          (SentDeltas.Reassembles (written.wholeCalls rj ids toolSchemas) (toolCallDeltas deltas) ↔
            ∀ i < written.calls.length, (written.timeline rj toolSchemas).NamedBefore chunks i) := by
  refine ⟨fun written => ⟨written.wholeCalls_names rj ids toolSchemas, ?_⟩,
    fun written => ⟨written.wholeCalls_names rj ids toolSchemas, ?_⟩⟩
  · exact fun chunks htext hchunks hone => written.generation_reassembles rj ids toolSchemas htext hchunks hone
  · exact fun chunks htext hchunks hone => written.generation_reassembles rj ids toolSchemas htext hchunks hone

section Examples

namespace Minicpm5ToolParser

def callF : WrittenCall where
  name := bytes "f"
  gap_quiet := by decide
  name_quiet := by decide
  closing_quiet := by decide

def callG : WrittenCall where
  name := bytes "g"
  gap_quiet := by decide
  name_quiet := by decide
  closing_quiet := by decide

def oneCall : WrittenText where
  calls := [callF]
  some_call := List.cons_ne_nil _ _
  tail_quiet := by decide

def twoCalls : WrittenText where
  calls := [callF, callG]
  some_call := List.cons_ne_nil _ _
  tail_quiet := by decide

/-- A chunk for each call. -/
def byCalls : List Str := [bytes "<function name=\"f\"></function>", bytes "<function name=\"g\"></function>"]

theorem byCalls_deltas : (generation RapidJson.textual .growing [] byCalls).toOption.map toolCallDeltas =
    some [⟨0, some (bytes "00"), some (bytes "f"), bytes "\x7b\x7d"⟩, ⟨0, none, none, bytes "\x7b\x7d"⟩] := by
  decide +kernel

theorem byCalls_oneAtATime : (twoCalls.timeline RapidJson.textual []).OneAtATime byCalls := by
  intro earlier chunk later hchunks i hi hbefore
  have hzero : i = 0 := by
    have hlength : i + 2 ≤ 2 := hi
    omega
  subst hzero
  obtain ⟨rfl, hlater⟩ | ⟨earlier, rfl, hlater⟩ := List.cons_eq_append_iff.mp hchunks
  · cases hlater
    have hends : (bytes "<function name=\"f\"></function>").length < (twoCalls.timeline RapidJson.textual []).start 2 := by
      decide
    exact hends
  · rw [List.flatten_cons, List.length_append, Nat.zero_add] at hbefore
    have hover : (twoCalls.timeline RapidJson.textual []).start 1 ≤ (bytes "<function name=\"f\"></function>").length := by
      decide
    omega

end Minicpm5ToolParser

namespace OnyxToolParser

def callF : WrittenCall where
  name := bytes "f"
  gap_quiet := by decide
  inner_quiet := by decide
  name_quiet := by decide
  closing_quiet := by decide
  after_quiet := by decide

def oneCall : WrittenText where
  calls := [callF]
  some_call := List.cons_ne_nil _ _
  tail_quiet := by decide

theorem whole_deltas : (generation RapidJson.textual .growing [] [oneCall.text]).toOption.map toolCallDeltas =
    some [⟨-1, none, none, bytes "\x7b\x7d"⟩] := by
  decide +kernel

end OnyxToolParser

/-- A call alone needs no chunk of its own for the name. -/
theorem streamed_calls_reassemble_one : ∃ deltas,
    Minicpm5ToolParser.generation RapidJson.textual .growing [] [Minicpm5ToolParser.oneCall.text] = .ok deltas ∧
      SentDeltas.Reassembles (Minicpm5ToolParser.oneCall.wholeCalls RapidJson.textual .growing []) (toolCallDeltas deltas) := by
  obtain ⟨-, hall⟩ := (streamed_calls_reassemble RapidJson.textual .growing []).1 Minicpm5ToolParser.oneCall
  obtain ⟨deltas, hdeltas, hiff⟩ := hall [Minicpm5ToolParser.oneCall.text] (List.append_nil _) (by decide) fun _ _ _ _ i hi =>
    absurd (Nat.le_of_add_left_le hi : 2 ≤ 1) (by decide)
  exact ⟨deltas, hdeltas, hiff.mpr fun i hi => .inl (Nat.lt_one_iff.mp hi)⟩

/-- Two calls of MiniCPM5 in a chunk each, and a call of Onyx in one chunk. -/
theorem streamed_calls_differ :
    (¬ ∀ (rj : RapidJson) (ids : RandomIds) (toolSchemas : ToolsSchemas) (written : Minicpm5ToolParser.WrittenText) (chunks : List Str),
      chunks.flatten = written.text → (∀ chunk ∈ chunks, chunk ≠ []) → (written.timeline rj toolSchemas).OneAtATime chunks →
      ∃ deltas, Minicpm5ToolParser.generation rj ids toolSchemas chunks = .ok deltas ∧
        SentDeltas.Reassembles (written.wholeCalls rj ids toolSchemas) (toolCallDeltas deltas)) ∧
    ¬ ∀ (rj : RapidJson) (ids : RandomIds) (toolSchemas : ToolsSchemas) (written : OnyxToolParser.WrittenText) (chunks : List Str),
      chunks.flatten = written.text → (∀ chunk ∈ chunks, chunk ≠ []) → (written.timeline rj toolSchemas).OneAtATime chunks →
      ∃ deltas, OnyxToolParser.generation rj ids toolSchemas chunks = .ok deltas ∧
        SentDeltas.Reassembles (written.wholeCalls rj ids toolSchemas) (toolCallDeltas deltas) := by
  constructor
  · intro h
    obtain ⟨deltas, hdeltas, hall⟩ := h RapidJson.textual .growing [] Minicpm5ToolParser.twoCalls Minicpm5ToolParser.byCalls (by decide)
      (by decide) Minicpm5ToolParser.byCalls_oneAtATime
    have heq := Minicpm5ToolParser.byCalls_deltas
    rw [hdeltas] at heq
    have hlength : 1 < (Minicpm5ToolParser.twoCalls.wholeCalls RapidJson.textual .growing []).length := by decide
    obtain ⟨first, rest, hgroup, -⟩ := hall.groups 1 hlength
    rw [Option.some.inj heq] at hgroup
    cases hgroup
  · intro h
    obtain ⟨deltas, hdeltas, hall⟩ := h RapidJson.textual .growing [] OnyxToolParser.oneCall [OnyxToolParser.oneCall.text]
      (List.append_nil _) (by decide) fun _ _ _ _ i hi => absurd (Nat.le_of_add_left_le hi : 2 ≤ 1) (by decide)
    have heq := OnyxToolParser.whole_deltas
    rw [hdeltas] at heq
    have hindex := (hall.indices ⟨-1, none, none, bytes "\x7b\x7d"⟩ (by rw [Option.some.inj heq]; exact List.mem_singleton_self _)).1
    exact absurd hindex (by decide)

end Examples

end ModelServer
