import ModelServer.CallTimeline
import ModelServer.DelimitedWalk
import ModelServer.Qwen3CoderToolParser

namespace ModelServer

open Qwen3CoderToolParser.Impl (orNullopt)

/-- The parser inside of a tool parser, with its random ids. -/
structure InnerParser (ι : Type) where
  parseChunk : ι → Str → Option (List ToolCall) × ι
  getCurrentFunctionName : ι → Option Str
  generateRandomId : ι → Str × ι

/-- A tool parser that publishes the first delta of a call as soon as its name is known, and its arguments once it is
complete. -/
structure StreamedToolParser (ι : Type) where
  streamParser : ι
  sent : SentDeltas := {}

namespace StreamedToolParser

variable {ι : Type} (inner : InnerParser ι)

/-- An id is drawn only for a delta that has one. -/
def withDrawn (p : StreamedToolParser ι) (sent : SentDeltas) (drawn : Bool) : StreamedToolParser ι :=
  ⟨if drawn then (inner.generateRandomId p.streamParser).2 else p.streamParser, sent⟩

def sendFullDelta (combines : Bool) (error : String) (p : StreamedToolParser ι) :
    List ToolCall → Except String (Option Delta × StreamedToolParser ι)
  | [toolCall] =>
    let full := p.sent.sendFullDelta combines (inner.generateRandomId p.streamParser).1 toolCall
    .ok (some (.toolCall full.1), p.withDrawn inner full.2 full.1.id.isSome)
  | _ => .error error

def sendFirstDeltaIfNeeded (p : StreamedToolParser ι) (toolCallName : Str) : Option Delta × StreamedToolParser ι :=
  let first := p.sent.sendFirstDeltaIfNeeded (inner.generateRandomId p.streamParser).1 toolCallName
  (first.1.map .toolCall, p.withDrawn inner first.2 first.1.isSome)

def parseChunk (combines : Bool) (error : String) (p : StreamedToolParser ι) (newChunk : Str) :
    Except String (Option Delta × StreamedToolParser ι) :=
  if newChunk.isEmpty then .ok (none, p)
  else
    let parsed := inner.parseChunk p.streamParser newChunk
    let p := { p with streamParser := parsed.2 }
    match parsed.1 with
    | some toolCalls => sendFullDelta inner combines error p toolCalls
    | none =>
      match inner.getCurrentFunctionName p.streamParser with
      | some functionName => .ok (p.sendFirstDeltaIfNeeded inner functionName)
      | none => .ok (none, p)

/-- The deltas of chunks, one after the other. -/
def parseChunks (combines : Bool) (error : String) (p : StreamedToolParser ι) : List Str → Except String (List Delta)
  | [] => .ok []
  | chunk :: chunks => do
    let (delta, p) ← parseChunk inner combines error p chunk
    let deltas ← parseChunks combines error p chunks
    return delta.toList ++ deltas

end StreamedToolParser

/-- An inner parser goes from delimiter to delimiter: where it stands, and the text that it has not read. -/
structure InnerParser.Follows {ι σ : Type} (inner : InnerParser ι) (w : DelimitedWalk σ Byte (Str × Str)) (nameOf : σ → Str) where
  core : ι → σ
  unread : ι → Str
  Sound : ι → Prop
  reads : ∀ {p : ι} {chunk rest : Str} {t : σ} {out : List (Str × Str)}, Sound p → chunk ≠ [] →
    w.Reads (core p) (unread p ++ chunk) t rest out →
      (inner.parseChunk p chunk).1.map (List.map ToolCall.invocation) = orNullopt out ∧ Sound (inner.parseChunk p chunk).2 ∧
        core (inner.parseChunk p chunk).2 = t ∧ unread (inner.parseChunk p chunk).2 = rest
  named : ∀ p, inner.getCurrentFunctionName p = if nameOf (core p) = [] then none else some (nameOf (core p))
  draws : ∀ {p : ι}, Sound p → Sound (inner.generateRandomId p).2 ∧ core (inner.generateRandomId p).2 = core p ∧
    unread (inner.generateRandomId p).2 = unread p

open DelimitedWalk

/-- A text of calls with what a walk makes of it: the calls complete one after the other, and the name of a call is known
after its first legs. -/
structure SpokenCalls {σ : Type} (w : DelimitedWalk σ Byte (Str × Str)) (nameOf : σ → Str) (κ : Type) where
  written : List κ
  legs : κ → List (Str × Str)
  /-- How many legs of a call there are up to its name. -/
  opening : Nat
  tail : Str
  initial : σ
  final : σ
  calls : List (Str × Str)
  walks : w.Walks initial (written.flatMap legs) final calls
  quiet : w.Quiet final tail
  length_eq : calls.length = written.length
  nonempty : ∀ call ∈ written, legsText (legs call) ≠ []
  opening_le : ∀ call ∈ written, opening ≤ (legs call).length
  closed : nameOf final = []
  within : ∀ {j part missing u out}, (h : j < written.length) → legs written[j] = part ++ missing → missing ≠ [] →
    w.Walks initial ((written.take j).flatMap legs ++ part) u out →
      out = calls.take j ∧ nameOf u = if opening ≤ part.length then (calls[j]?.map Prod.fst).getD [] else []

namespace SpokenCalls

variable {σ κ : Type} {w : DelimitedWalk σ Byte (Str × Str)} {nameOf : σ → Str} (spoken : SpokenCalls w nameOf κ)

def text : Str := legsText (spoken.written.flatMap spoken.legs) ++ spoken.tail

/-- Where call `j` begins. -/
def start (j : Nat) : Nat := (legsText ((spoken.written.take j).flatMap spoken.legs)).length

/-- Where the name of call `j` is complete. -/
def head (j : Nat) : Nat :=
  spoken.start j + ((spoken.written[j]?.map fun call => (legsText ((spoken.legs call).take spoken.opening)).length).getD 0)

theorem start_succ {j : Nat} (h : j < spoken.written.length) :
    spoken.start (j + 1) = spoken.start j + (legsText (spoken.legs spoken.written[j])).length := by
  rw [start, start, List.take_succ_eq_append_getElem h, List.flatMap_append, List.flatMap_singleton, legsText_append, List.length_append]

theorem start_le (j : Nat) : spoken.start j ≤ spoken.text.length := by
  have hsplit := congrArg legsText (congrArg (List.flatMap spoken.legs) (List.take_append_drop j spoken.written))
  rw [List.flatMap_append, legsText_append] at hsplit
  rw [start, text, ← hsplit, List.length_append, List.length_append]
  omega

def timeline : CallTimeline where
  calls := spoken.calls
  start := spoken.start
  head := spoken.head
  first := rfl
  ordered := by
    intro i hi
    rw [spoken.length_eq] at hi
    have hpos := List.length_pos_iff.mpr (spoken.nonempty _ (List.getElem_mem hi))
    rw [spoken.start_succ hi]
    omega

/-- Where the walk waits after a part of the text. -/
theorem exists_at (m : Nat) : ∃ r : σ × Str × List (Str × Str), w.Reads spoken.initial (spoken.text.take m) r.1 r.2.1 r.2.2 := by
  obtain ⟨t, rest, out, hreads⟩ := w.exists_reads spoken.initial (spoken.text.take m)
  exact ⟨(t, rest, out), hreads⟩

noncomputable def stateAt (m : Nat) : σ := (spoken.exists_at m).choose.1

noncomputable def restAt (m : Nat) : Str := (spoken.exists_at m).choose.2.1

noncomputable def callsAt (m : Nat) : List (Str × Str) := (spoken.exists_at m).choose.2.2

theorem reads_at (m : Nat) : w.Reads spoken.initial (spoken.text.take m) (spoken.stateAt m) (spoken.restAt m) (spoken.callsAt m) :=
  (spoken.exists_at m).choose_spec

/-- At each position some calls are complete, and the name of the next one is known or not. -/
theorem at_position (m : Nat) : ∃ j ≤ spoken.written.length, spoken.callsAt m = spoken.calls.take j ∧ spoken.start j ≤ m ∧
    (j < spoken.written.length → m < spoken.start (j + 1)) ∧
    nameOf (spoken.stateAt m) = if j < spoken.written.length ∧ spoken.head j ≤ m then (spoken.calls[j]?.map Prod.fst).getD [] else [] := by
  obtain ⟨j, part, u, rest, out, ⟨hstarts, hon⟩, hwalk, hreads⟩ :=
    spoken.walks.reads_items spoken.quiet (List.take_append_drop m spoken.text)
  obtain ⟨hstate, -, hcalls⟩ := (spoken.reads_at m).unique hreads
  rw [List.length_take] at hstarts hon
  have hstart : spoken.start j ≤ m := Nat.le_trans hstarts (Nat.min_le_left _ _)
  obtain ⟨rfl, rfl⟩ | ⟨hlt, hbefore, ⟨missing, hne, hpart⟩, hlegs⟩ := hon
  · rw [List.append_nil, List.take_length] at hwalk
    obtain ⟨hfinal, hall⟩ := hwalk.unique spoken.walks
    refine ⟨_, Nat.le_refl _, ?_, hstart, fun h => absurd h (Nat.lt_irrefl _), ?_⟩
    · rw [hcalls, hall, ← spoken.length_eq, List.take_length]
    · rw [hstate, hfinal, spoken.closed, if_neg (fun h => absurd h.1 (Nat.lt_irrefl _))]
  · obtain ⟨hout, hname⟩ := spoken.within hlt hpart hne hwalk
    have hshort : min m spoken.text.length = m := by
      have hwhole := spoken.start_le (j + 1)
      have hlt' : min m spoken.text.length < spoken.start (j + 1) := hbefore
      omega
    have hopening := hlegs spoken.opening (spoken.opening_le _ (List.getElem_mem hlt))
    rw [hshort] at hopening hbefore
    have hhead : spoken.opening ≤ part.length ↔ spoken.head j ≤ m := by
      rw [hopening, legsText_append, List.length_append, head, List.getElem?_eq_getElem hlt]
      rfl
    refine ⟨j, Nat.le_of_lt hlt, hcalls.trans hout, hstart, fun _ => hbefore, ?_⟩
    rw [hstate, hname]
    simp only [hhead, hlt, true_and]

noncomputable def reader : spoken.timeline.Reader where
  done m := (spoken.callsAt m).length
  current m := nameOf (spoken.stateAt m)
  bounded := by
    intro m
    obtain ⟨j, -, hcalls, -⟩ := spoken.at_position m
    rw [hcalls]
    exact List.length_take_le' _ _
  started := by
    intro m
    obtain ⟨j, hj, hcalls, hstart, -⟩ := spoken.at_position m
    rw [hcalls, List.length_take_of_le (spoken.length_eq ▸ hj)]
    exact hstart
  ends_later := by
    intro m hlt
    obtain ⟨j, hj, hcalls, -, hlater, -⟩ := spoken.at_position m
    rw [hcalls, List.length_take_of_le (spoken.length_eq ▸ hj)] at hlt ⊢
    exact hlater (spoken.length_eq ▸ hlt)
  named := by
    intro m hlt hhead
    obtain ⟨j, hj, hcalls, -, -, hname⟩ := spoken.at_position m
    have hlength : (spoken.callsAt m).length = j := by rw [hcalls, List.length_take_of_le (spoken.length_eq ▸ hj)]
    simp only [hlength] at hlt hhead ⊢
    have hget : spoken.calls[j]? = some spoken.timeline.calls[j] := List.getElem?_eq_getElem hlt
    rw [hname, if_pos ⟨spoken.length_eq ▸ hlt, hhead⟩, hget]
    rfl
  unnamed := by
    intro m hlate
    obtain ⟨j, hj, hcalls, -, -, hname⟩ := spoken.at_position m
    have hlength : (spoken.callsAt m).length = j := by rw [hcalls, List.length_take_of_le (spoken.length_eq ▸ hj)]
    rw [hlength] at hlate
    rw [hname, if_neg]
    intro ⟨hlt, hhead⟩
    exact absurd hhead (Nat.not_le_of_lt (hlate (spoken.length_eq.symm ▸ hlt)))

theorem callsAt_eq (m : Nat) : spoken.callsAt m = spoken.calls.take (spoken.reader.done m) := by
  obtain ⟨j, hj, hcalls, -⟩ := spoken.at_position m
  show _ = spoken.calls.take (spoken.callsAt m).length
  rw [hcalls, List.length_take_of_le (spoken.length_eq ▸ hj)]

end SpokenCalls

section Runs

open StreamedToolParser

variable {ι σ κ : Type} {inner : InnerParser ι} {w : DelimitedWalk σ Byte (Str × Str)} {nameOf : σ → Str}
  (follows : inner.Follows w nameOf) (spoken : SpokenCalls w nameOf κ) (combines : Bool) (error : String)

/-- The inner parser stands where the walk waits. -/
structure InnerParser.Follows.StandsAt (p : ι) (m : Nat) : Prop where
  sound : follows.Sound p
  core : follows.core p = spoken.stateAt m
  unread : follows.unread p = spoken.restAt m

variable {follows spoken}

theorem InnerParser.Follows.StandsAt.drawn {p : ι} {m : Nat} (h : follows.StandsAt spoken p m) (sent : SentDeltas) (drawn : Bool) :
    follows.StandsAt spoken ((⟨p, sent⟩ : StreamedToolParser ι).withDrawn inner sent drawn).streamParser m := by
  cases drawn with
  | false => exact h
  | true =>
    obtain ⟨hsound, hcore, hunread⟩ := follows.draws h.sound
    exact ⟨hsound, hcore.trans h.core, hunread.trans h.unread⟩

/-- What a chunk takes the inner parser to. -/
theorem InnerParser.Follows.StandsAt.parseChunk {p : ι} {earlier : List Str} {chunk : Str} {later : List Str}
    (h : follows.StandsAt spoken p earlier.flatten.length) (htext : (earlier ++ chunk :: later).flatten = spoken.text)
    (hchunk : chunk ≠ []) :
    ∃ out, (inner.parseChunk p chunk).1.map (List.map ToolCall.invocation) = orNullopt out ∧
      spoken.callsAt (earlier.flatten.length + chunk.length) = spoken.callsAt earlier.flatten.length ++ out ∧
      follows.StandsAt spoken (inner.parseChunk p chunk).2 (earlier.flatten.length + chunk.length) := by
  have hbefore : spoken.text.take earlier.flatten.length = earlier.flatten := by
    rw [← htext, List.flatten_append, List.take_left]
  have hafter : spoken.text.take (earlier.flatten.length + chunk.length) = earlier.flatten ++ chunk := by
    rw [← htext, List.flatten_append, List.flatten_cons, List.take_length_add_append, List.take_left]
  obtain ⟨t, rest, out, hreads⟩ := w.exists_reads (spoken.stateAt earlier.flatten.length) (spoken.restAt earlier.flatten.length ++ chunk)
  have hall := (spoken.reads_at earlier.flatten.length).append hreads
  rw [hbefore, ← hafter] at hall
  obtain ⟨hstate, hrest, hcalls⟩ := (spoken.reads_at _).unique hall
  rw [← h.core, ← h.unread] at hreads
  obtain ⟨hparsed, hsound, hcore, hunread⟩ := follows.reads h.sound hchunk hreads
  exact ⟨out, hparsed, hcalls, hsound, hcore.trans hstate.symm, hunread.trans hrest.symm⟩

/-- A chunk has the deltas of its event. -/
theorem StreamedToolParser.parseChunk_event {p : StreamedToolParser ι} {earlier : List Str} {chunk : Str} {later : List Str}
    (h : follows.StandsAt spoken p.streamParser earlier.flatten.length)
    (htext : (earlier ++ chunk :: later).flatten = spoken.text) (hchunk : chunk ≠ [])
    (hstep : spoken.reader.done (earlier.flatten.length + chunk.length) ≤ spoken.reader.done earlier.flatten.length + 1) :
    ∃ id delta q, StreamedToolParser.parseChunk inner combines error p chunk = .ok (delta, q) ∧
      (delta, q.sent) =
        ((SentDeltas.react combines p.sent id
            (spoken.reader.event earlier.flatten.length (earlier.flatten.length + chunk.length))).1.map Delta.toolCall,
          (SentDeltas.react combines p.sent id
            (spoken.reader.event earlier.flatten.length (earlier.flatten.length + chunk.length))).2) ∧
      follows.StandsAt spoken q.streamParser (earlier.flatten.length + chunk.length) := by
  obtain ⟨out, hparsed, hcalls, hstands⟩ := h.parseChunk htext hchunk
  have hlength : spoken.reader.done (earlier.flatten.length + chunk.length) = spoken.reader.done earlier.flatten.length + out.length := by
    show (spoken.callsAt _).length = (spoken.callsAt _).length + _
    rw [hcalls, List.length_append]
  have hnonempty : chunk.isEmpty = false := by simpa using hchunk
  rw [StreamedToolParser.parseChunk, hnonempty, if_neg Bool.false_ne_true]
  dsimp only
  have hcurrent : nameOf (follows.core (inner.parseChunk p.streamParser chunk).2) =
      spoken.reader.current (earlier.flatten.length + chunk.length) := congrArg nameOf hstands.core
  cases out with
  | nil =>
    have hnone : (inner.parseChunk p.streamParser chunk).1 = none := Option.map_eq_none_iff.mp hparsed
    rw [hnone, follows.named, hcurrent]
    by_cases hname : spoken.reader.current (earlier.flatten.length + chunk.length) = []
    · rw [if_pos hname, CallTimeline.Reader.event_silent hlength hname]
      exact ⟨[], none, _, rfl, rfl, hstands⟩
    · rw [if_neg hname, CallTimeline.Reader.event_current hlength hname]
      exact ⟨_, _, _, rfl, rfl, hstands.drawn _ _⟩
  | cons call out =>
    have hone : out = [] := by
      rw [hlength, List.length_cons] at hstep
      exact List.eq_nil_of_length_eq_zero (by omega)
    rw [hone] at hparsed hcalls hlength
    obtain ⟨toolCalls, hsome, hcall⟩ := Option.map_eq_some_iff.mp hparsed
    obtain ⟨toolCall, hsingle, hinvocation⟩ := List.map_eq_singleton_iff.mp hcall
    obtain ⟨hdone, hevent⟩ := CallTimeline.Reader.event_completed
      (show spoken.reader.done earlier.flatten.length < spoken.reader.done (earlier.flatten.length + chunk.length) by
        rw [hlength]
        exact Nat.lt_succ_self _)
    have hsame : spoken.timeline.calls[spoken.reader.done earlier.flatten.length] = call := by
      have htake : _ = spoken.timeline.calls.take _ := spoken.callsAt_eq (earlier.flatten.length + chunk.length)
      have hbefore : spoken.timeline.calls.take _ = _ := (spoken.callsAt_eq earlier.flatten.length).symm
      rw [hcalls, hlength, List.length_singleton, List.take_succ_eq_append_getElem hdone, hbefore] at htake
      exact (List.singleton_inj.mp (List.append_cancel_left htake)).symm
    rw [hsome, hsingle, hevent, hsame, ← hinvocation]
    exact ⟨_, _, _, rfl, rfl, hstands.drawn _ _⟩

theorem StreamedToolParser.parseChunks_events {p : StreamedToolParser ι} {earlier chunks : List Str}
    (h : follows.StandsAt spoken p.streamParser earlier.flatten.length) (htext : (earlier ++ chunks).flatten = spoken.text)
    (hchunks : ∀ chunk ∈ chunks, chunk ≠ []) (hsteps : spoken.reader.Steps earlier.flatten.length chunks) :
    ∃ tagged deltas, tagged.map Prod.snd = chunks ∧ StreamedToolParser.parseChunks inner combines error p chunks = .ok deltas ∧
      toolCallDeltas deltas = SentDeltas.reactAll combines p.sent (spoken.reader.events earlier.flatten.length tagged) := by
  induction chunks generalizing p earlier with
  | nil => exact ⟨[], [], rfl, rfl, rfl⟩
  | cons chunk chunks ih =>
    obtain ⟨hchunk, hlater⟩ := List.forall_mem_cons.mp hchunks
    obtain ⟨hstep, hsteps⟩ := hsteps
    obtain ⟨id, delta, q, hparse, hreact, hstands⟩ := parseChunk_event combines error h htext hchunk hstep
    have hlength : earlier.flatten.length + chunk.length = (earlier ++ [chunk]).flatten.length := by
      rw [List.flatten_append, List.length_append, List.flatten_singleton]
    rw [hlength] at hsteps hstands
    obtain ⟨tagged, deltas, htagged, hrest, hdeltas⟩ := ih hstands (by rwa [List.append_assoc]) hlater hsteps
    obtain ⟨hdelta, hsent⟩ := Prod.mk.inj hreact
    refine ⟨(id, chunk) :: tagged, delta.toList ++ deltas, congrArg _ htagged, ?_, ?_⟩
    · rw [StreamedToolParser.parseChunks, hparse]
      show (do let deltas ← StreamedToolParser.parseChunks inner combines error q chunks; return delta.toList ++ deltas) = _
      rw [hrest]
      rfl
    · rw [toolCallDeltas_append, hdeltas, hdelta, hsent, ← hlength]
      show _ = (SentDeltas.react combines p.sent id _).1.toList ++ _
      congr 1
      generalize (SentDeltas.react combines p.sent id _).1 = d
      cases d with
      | none => rfl
      | some d => rfl

/-- What the inner parser makes of the whole text. -/
theorem InnerParser.Follows.parseChunk_whole {p : ι} (hsound : follows.Sound p) (hcore : follows.core p = spoken.initial)
    (hunread : follows.unread p = []) (hne : spoken.text ≠ []) :
    (inner.parseChunk p spoken.text).1.map (List.map ToolCall.invocation) = orNullopt spoken.calls := by
  have hreads : w.Reads (follows.core p) (follows.unread p ++ spoken.text) spoken.final spoken.tail spoken.calls := by
    rw [hcore, hunread]
    exact spoken.walks.reads_whole spoken.quiet
  exact (follows.reads hsound hne hreads).1

/-- For every division into chunks that completes one call at a time: the published deltas are the calls if and only if each
call is named by a chunk before the one that completes it. -/
theorem StreamedToolParser.parseChunks_reassembles {p : ι} (hsound : follows.Sound p) (hcore : follows.core p = spoken.initial)
    (hunread : follows.unread p = []) {chunks : List Str} (htext : chunks.flatten = spoken.text) (hchunks : ∀ chunk ∈ chunks, chunk ≠ [])
    (hone : spoken.timeline.OneAtATime chunks) :
    ∃ deltas, StreamedToolParser.parseChunks inner combines error ⟨p, {}⟩ chunks = .ok deltas ∧
      (SentDeltas.Reassembles spoken.calls (toolCallDeltas deltas) ↔
        ∀ i < spoken.calls.length, (combines = true ∧ i = 0) ∨ spoken.timeline.NamedBefore chunks i) := by
  have hnothing : w.Reads spoken.initial (spoken.text.take 0) spoken.initial [] [] := by
    refine .waits fun m hm i hat => ?_
    have hlength := hat.length_le ((w.delimiters spoken.initial).nonempty m hm)
    have hpos := List.length_pos_iff.mpr ((w.delimiters spoken.initial).nonempty m hm)
    rw [List.take_zero, List.length_nil] at hlength
    omega
  obtain ⟨hstate, hrest, -⟩ := (spoken.reads_at 0).unique hnothing
  have hstands : follows.StandsAt spoken p ([] : List Str).flatten.length := ⟨hsound, hcore.trans hstate.symm, hunread.trans hrest.symm⟩
  have hsteps : spoken.reader.Steps 0 chunks := @CallTimeline.Reader.steps_of_oneAtATime _ spoken.reader _ [] hone
  obtain ⟨tagged, deltas, rfl, hparse, hdeltas⟩ :=
    parseChunks_events (p := ⟨p, {}⟩) combines error hstands htext hchunks hsteps
  refine ⟨deltas, hparse, ?_⟩
  rw [hdeltas]
  refine spoken.reader.reassembles_iff combines hone ?_
  show spoken.start spoken.calls.length ≤ _
  rw [htext]
  exact spoken.start_le _

end Runs

end ModelServer
