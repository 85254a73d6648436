import ModelServer.TextStreamer

namespace ModelServer.OVMSTextStreamer

variable {σ : Type} (env : Environment σ) {s : Streamer σ}

/-- No callback has been the last one or has asked to stop. -/
def Quiet (called : List Call) : Prop := ∀ c ∈ called, c.isLast = false ∧ c.status = .running

structure Open (s : Streamer σ) : Prop where
  completion : s.completion = .open
  quiet : Quiet s.called

/-- The parser has thrown. -/
structure Failed (s : Streamer σ) : Prop where
  completion : s.completion = .aborted
  status : s.abortStatus = .cancel
  quiet : Quiet s.called

/-- The callback has asked to stop. -/
structure Refused (s : Streamer σ) : Prop where
  completion : s.completion = .aborted
  status : s.abortStatus ≠ .running
  called : ∃ earlier c, s.called = earlier ++ [c] ∧ Quiet earlier ∧ c.status = s.abortStatus

/-- The last callback has been made and has been answered. -/
structure Completed (s : Streamer σ) : Prop where
  completion : s.completion ≠ .aborted
  called : ∃ earlier c, s.called = earlier ++ [c] ∧ Quiet earlier ∧ c.isLast = true ∧ c.status = .running

/-- The streamer has been aborted and says so. -/
def Aborts (result : Result σ) : Prop :=
  result.1 = none ∧ Failed result.2 ∨ result.1 = some result.2.abortStatus ∧ Refused result.2

/-- The streamer goes on, behind its last callback where `isLast` says so. -/
def Goes (isLast : Bool) (s : Streamer σ) : Prop := s.completion = .open ∧ if isLast then Completed s else Open s

def Leaves (isLast : Bool) (result : Result σ) : Prop :=
  result.1 = some .running ∧ Goes isLast result.2 ∨ Aborts result

section Calls

theorem Quiet.append {called : List Call} {c : Call} (h : Quiet called) (hl : c.isLast = false)
    (hs : c.status = .running) : Quiet (called ++ [c]) := by
  intro d hd
  rcases List.mem_append.mp hd with hd | hd
  · exact h d hd
  · obtain rfl := List.mem_singleton.mp hd
    exact ⟨hl, hs⟩

theorem Open.goes (h : Open s) : Goes false s := ⟨h.completion, h⟩

theorem Goes.open (h : Goes false s) : Open s := h.2

theorem Aborts.andThen {result : Result σ} (h : Aborts result) (next : Streamer σ → Result σ) :
    result.andThen next = result := by
  obtain ⟨status, t⟩ := result
  rcases h with ⟨hnone, _⟩ | ⟨hsome, hrefused⟩
  · have hstatus : status = none := hnone
    rw [hstatus]
    rfl
  · have hstatus : status = some t.abortStatus := hsome
    have hne := hrefused.status
    rw [hstatus]
    cases hs : t.abortStatus with
    | running => exact absurd hs hne
    | stop | cancel => rfl

/-- What follows a step that goes on, or the step that aborts. -/
theorem Leaves.andThen {result : Result σ} {next : Streamer σ → Result σ} {first isLast : Bool}
    (h : Leaves first result) (hnext : ∀ t, Goes first t → Leaves isLast (next t)) :
    Leaves isLast (result.andThen next) := by
  rcases h with ⟨hrunning, hgoes⟩ | haborts
  · obtain ⟨status, t⟩ := result
    have hstatus : status = some .running := hrunning
    rw [hstatus]
    exact hnext t hgoes
  · rw [haborts.andThen]
    exact Or.inr haborts

/-- A callback of an open streamer. -/
theorem call_leaves (h : Open s) (delta : Delta) (isLast : Bool) :
    Leaves isLast (some (s.call env delta isLast).1, (s.call env delta isLast).2) := by
  have hopen : s.completion ≠ .aborted := by simp [h.completion]
  unfold Streamer.call Streamer.observe
  dsimp only
  rw [if_neg hopen]
  split
  next hrunning =>
    left
    refine ⟨by rw [hrunning], h.completion, ?_⟩
    cases isLast with
    | true => exact ⟨hopen, s.called, _, rfl, h.quiet, rfl, hrunning⟩
    | false => exact ⟨h.completion, h.quiet.append rfl hrunning⟩
  next hother =>
    right
    right
    exact ⟨rfl, rfl, hother, s.called, _, rfl, h.quiet, rfl⟩

theorem parserFailure_aborts (h : Open s) : Aborts (none, s.parserFailure) :=
  Or.inl ⟨rfl, rfl, rfl, h.quiet⟩

end Calls

section Flush

theorem parse_open (h : Open s) {chunk : Str} {tokens : List Int} {finishReason : FinishReason}
    {delta : Option Delta} {t : Streamer σ} (hp : s.parse env chunk tokens finishReason = some (delta, t)) :
    Open t := by
  unfold Streamer.parse at hp
  split at hp
  · cases hp
    exact h
  · obtain ⟨⟨_, _⟩, _, heq⟩ := Option.map_eq_some_iff.mp hp
    cases heq
    exact ⟨h.completion, h.quiet⟩

/-- The drain loop leaves the streamer open, or has been aborted. -/
def Drains : Streamer.Drained × Streamer σ → Prop
  | (.delta _, s) => Open s
  | (.leave status, s) => Aborts (status, s)

theorem parser_of_call (delta : Delta) (isLast : Bool) : (s.call env delta isLast).2.parser = s.parser := by
  unfold Streamer.call Streamer.observe
  dsimp only
  split
  · rfl
  · split <;> rfl

/-- A pass of the drain loop takes one pending delta. -/
theorem drainBody_pending (parser : StreamParser σ) {state next : Option Delta × Streamer σ}
    (h : Streamer.drainBody env parser state = .inl next) :
    parser.pending next.2.parser < parser.pending state.2.parser := by
  obtain ⟨delta, s⟩ := state
  unfold Streamer.drainBody at h
  dsimp only at h
  split at h
  · cases h
  · cases h
  next d t hdrain =>
    have hless := parser.drains hdrain
    split at h
    · cases h
      exact hless
    next delta =>
      have hparser := parser_of_call env (s := { s with parser := t }) delta false
      split at h
      next u hcall =>
        cases h
        rw [hcall] at hparser
        have hparser' : u.parser = t := hparser
        show parser.pending u.parser < parser.pending s.parser
        rw [hparser']
        exact hless
      · cases h

theorem drainBody_open (parser : StreamParser σ) (h : Open s) (delta : Option Delta) :
    (∀ t, Streamer.drainBody env parser (delta, s) = .inl t → Open t.2) ∧
      ∀ r, Streamer.drainBody env parser (delta, s) = .inr r → Drains r := by
  unfold Streamer.drainBody
  dsimp only
  split
  · exact ⟨by simp, fun r hr => by cases hr; exact parserFailure_aborts h⟩
  · exact ⟨by simp, fun r hr => by cases hr; exact ⟨h.completion, h.quiet⟩⟩
  next d t hdrain =>
    have hopen : Open { s with parser := t } := ⟨h.completion, h.quiet⟩
    split
    · exact ⟨fun u hu => by cases hu; exact hopen, by simp⟩
    next delta =>
      have hcall := call_leaves env hopen delta false
      split
      next u heq =>
        rw [heq] at hcall
        refine ⟨fun v hv => ?_, by simp⟩
        cases hv
        rcases hcall with ⟨_, hgoes⟩ | haborts
        · exact hgoes.open
        · rcases haborts with ⟨hnone, _⟩ | ⟨hstatus, hrefused⟩
          · cases hnone
          · exact absurd (Option.some.inj hstatus).symm hrefused.status
      next status u hne heq =>
        rw [heq] at hcall
        refine ⟨by simp, fun r hr => ?_⟩
        cases hr
        rcases hcall with ⟨hstatus, _⟩ | haborts
        · exact absurd (Option.some.inj hstatus) hne
        · exact haborts

theorem drainDeltas_open (h : Open s) (delta : Option Delta) : Drains (s.drainDeltas env delta) := by
  unfold Streamer.drainDeltas
  split
  · exact h
  next parser _ =>
    have hexits : Loop.Exits (Streamer.drainBody env parser) (delta, s)
        (Loop.run (Streamer.drainBody env parser) (parser.pending s.parser + 1) (.delta delta, s) (delta, s)) :=
      Loop.run_exits (fun state => parser.pending state.2.parser)
        (fun _ _ => drainBody_pending env parser) _ (Nat.lt_succ_self _)
    have hkeep : ∀ state next : Option Delta × Streamer σ, Open state.2 →
        Streamer.drainBody env parser state = .inl next → Open next.2 :=
      fun state next hopen => (drainBody_open env parser hopen state.1).1 next
    have hlast : ∀ (state : Option Delta × Streamer σ) r, Open state.2 →
        Streamer.drainBody env parser state = .inr r → Drains r :=
      fun state r hopen => (drainBody_open env parser hopen state.1).2 r
    exact Loop.Exits.invariant hkeep hlast hexits h

theorem giveOut_leaves (h : Open s) (delta : Option Delta) (isLast : Bool) :
    Leaves isLast (some (s.giveOut env delta isLast).1, (s.giveOut env delta isLast).2) := by
  unfold Streamer.giveOut
  split
  · exact call_leaves env h _ isLast
  · cases isLast with
    | true => exact call_leaves env h .finish true
    | false => exact Or.inl ⟨rfl, h.goes⟩

/-- A flush makes its last callback, and only with a finish reason one that is the last of all. -/
theorem flush_chunk_leaves (h : Open s) (text : Str) (printUntil : Nat) (finishReason : FinishReason) :
    Leaves (decide (finishReason ≠ .none)) (s.flush_chunk env text printUntil finishReason) := by
  unfold Streamer.flush_chunk
  dsimp only
  split
  · exact Or.inr (parserFailure_aborts ⟨h.completion, h.quiet⟩)
  next delta t hparse =>
    have hopen : Open t := by
      refine parse_open env ?_ hparse
      exact ⟨h.completion, h.quiet⟩
    have hdrains := drainDeltas_open env hopen delta
    split
    next status u hdrained =>
      rw [hdrained] at hdrains
      exact Or.inr hdrains
    next delta u hdrained =>
      rw [hdrained] at hdrains
      exact giveOut_leaves env hdrains delta _

end Flush

section Write

theorem Open.flush (h : Open s) (text : Str) (printUntil : Nat) :
    Leaves false (s.flush_chunk env text printUntil .none) := flush_chunk_leaves env h text printUntil .none

theorem flushPending_leaves (h : Open s) : Leaves false (s.flushPending env) := by
  unfold Streamer.flushPending
  split
  · exact Or.inl ⟨rfl, h.goes⟩
  · split
    · exact h.flush env _ _
    · exact Or.inl ⟨rfl, h.goes⟩

/-- Emptying the cache behind a flush changes nothing of what has been called. -/
theorem Leaves.map {result : Result σ} {isLast : Bool} (h : Leaves isLast result) {f : Streamer σ → Streamer σ}
    (hcompletion : ∀ t, (f t).completion = t.completion) (hcalled : ∀ t, (f t).called = t.called)
    (hstatus : ∀ t, (f t).abortStatus = t.abortStatus) : Leaves isLast (result.1, f result.2) := by
  rcases h with ⟨hrunning, hopen, hgoes⟩ | ⟨hnone, hfailed⟩ | ⟨hsome, hrefused⟩
  · refine Or.inl ⟨hrunning, (hcompletion _).trans hopen, ?_⟩
    cases isLast with
    | true =>
      have hdone : Completed result.2 := hgoes
      have hnot : (f result.2).completion ≠ .aborted := by simp [hcompletion, hdone.completion]
      exact ⟨hnot, by simpa [hcalled] using hdone.called⟩
    | false =>
      have hquiet : Open result.2 := hgoes
      exact ⟨(hcompletion _).trans hopen, by simpa [hcalled] using hquiet.quiet⟩
  · refine Or.inr (Or.inl ⟨hnone, (hcompletion _).trans hfailed.completion, ?_, ?_⟩)
    · exact (hstatus _).trans hfailed.status
    · simpa [hcalled] using hfailed.quiet
  · refine Or.inr (Or.inr ⟨by simpa [hstatus] using hsome, (hcompletion _).trans hrefused.completion, ?_, ?_⟩)
    · simpa [hstatus] using hrefused.status
    · simpa [hcalled, hstatus] using hrefused.called

theorem flushStartTag_leaves (h : Open s) (parser : StreamParser σ) (token : Int) (startTag : Str) :
    Leaves false (s.flushStartTag env parser token startTag) := by
  have hopen : Open { s with tokensCache := [token], decodedLengths := [(startTag.length : Int)], printedLen := 0 } :=
    ⟨h.completion, h.quiet⟩
  have hflush := hopen.flush env startTag startTag.length
  unfold Streamer.flushStartTag
  dsimp only
  split
  next t heq =>
    rw [heq] at hflush
    exact hflush
  next status t heq =>
    rw [heq] at hflush
    exact hflush.map (f := fun t => t.clearCache.apply_decode_params
      (parser.needSpecialTokensForCurrentDecode t.parser env.userWantsSpecial)) (fun _ => rfl) (fun _ => rfl)
      (fun _ => rfl)

/-- The change of the decode parameters goes on, or leaves `write`. -/
theorem handle_decoding_params_change_leaves (h : Open s) (token : Int) :
    (∀ result t, s.handle_decoding_params_change env token = (some result, t) → Leaves false result) ∧
      ∀ t, s.handle_decoding_params_change env token = (none, t) → Open t := by
  unfold Streamer.handle_decoding_params_change
  split
  · exact ⟨by simp, fun t ht => by cases ht; exact h⟩
  next parser _ =>
    dsimp only
    generalize (if s.decodeSpecialTokens = true then [] else
      parser.getPhaseStartTagForToken s.parser token env.toolsAvailable) = startTag
    split
    · refine ⟨fun result t ht => ?_, by simp⟩
      cases ht
      exact (flushPending_leaves env h).andThen fun t ht => flushStartTag_leaves env ht.open parser token _
    · split
      · exact ⟨by simp, fun t ht => by cases ht; exact h⟩
      · have hflush := flushPending_leaves env h
        split
        next t heq =>
          rw [heq] at hflush
          refine ⟨by simp, fun u hu => ?_⟩
          cases hu
          rcases hflush with ⟨_, hgoes⟩ | ⟨hnone, _⟩ | ⟨hstatus, hrefused⟩
          · exact ⟨hgoes.1, hgoes.open.quiet⟩
          · cases hnone
          · exact absurd (Option.some.inj hstatus).symm hrefused.status
        next status t hne heq =>
          rw [heq] at hflush
          refine ⟨fun result u hu => ?_, by simp⟩
          cases hu
          exact hflush

theorem decodeToken_leaves (h : Open s) (token : Int) (immediateFlush : Bool) :
    Leaves false (s.decodeToken env token immediateFlush) := by
  unfold Streamer.decodeToken
  dsimp only
  generalize htext : Streamer.decoded env _ = text
  have hopen : Open { s with
      tokensCache := s.tokensCache ++ [token]
      decodedLengths := s.decodedLengths ++ [(text.length : Int)] } := ⟨h.completion, h.quiet⟩
  have hrunning : Leaves false (some .running, { s with
      tokensCache := s.tokensCache ++ [token]
      decodedLengths := s.decodedLengths ++ [(text.length : Int)] }) := Or.inl ⟨rfl, hopen.goes⟩
  split
  · have hflush := hopen.flush env text text.length
    split
    next t heq =>
      rw [heq] at hflush
      exact hflush
    next status t heq =>
      rw [heq] at hflush
      exact hflush.map (f := Streamer.clearCache) (fun _ => rfl) (fun _ => rfl) (fun _ => rfl)
  · split
    · exact Or.inl ⟨rfl, h.completion, h.completion, h.quiet⟩
    · split
      · split
        · exact hopen.flush env _ _
        · exact hrunning
      · split
        · exact hrunning
        · split
          · exact hrunning
          · exact hopen.flush env _ _

theorem writeToken_leaves (h : Open s) (token : Int) (immediateFlush : Bool) :
    Leaves false (s.writeToken env token immediateFlush) := by
  obtain ⟨hleave, hgo⟩ := handle_decoding_params_change_leaves env h token
  unfold Streamer.writeToken
  split
  next result t heq => exact hleave result t heq
  next t heq => exact decodeToken_leaves env (hgo t heq) token immediateFlush

theorem drainTokens_leaves (h : Open s) (tokens : List Int) : Leaves false (s.drainTokens env tokens) := by
  induction tokens generalizing s with
  | nil => exact Or.inl ⟨rfl, h.goes⟩
  | cons token tokens ih =>
    have hwrite := writeToken_leaves env h token true
    unfold Streamer.drainTokens
    split
    next t heq =>
      rw [heq] at hwrite
      rcases hwrite with ⟨_, hgoes⟩ | ⟨hnone, _⟩ | ⟨hstatus, hrefused⟩
      · exact ih hgoes.open
      · cases hnone
      · exact absurd (Option.some.inj hstatus).symm hrefused.status
    next t heq =>
      rw [heq] at hwrite
      exact hwrite
    next status t hne heq =>
      rw [heq] at hwrite
      rcases hwrite with ⟨hstatus, _⟩ | ⟨hnone, _⟩ | ⟨hstatus, hrefused⟩
      · exact absurd (Option.some.inj hstatus) hne
      · cases hnone
      · dsimp only [Streamer.observe]
        rw [if_pos hrefused.completion]
        exact Or.inr (Or.inr ⟨rfl, hrefused⟩)

/-- The end of the stream makes the last callback, unless the streamer has been aborted before. -/
theorem drain_terminal_leaves (h : Open s) {reason : FinishReason} (hr : reason ≠ .none) :
    Leaves true (s.drain_terminal env reason) := by
  have hopen : Open { s with
      tokensCache := s.tokensCache.take s.printed
      decodedLengths := s.decodedLengths.take s.printed } := ⟨h.completion, h.quiet⟩
  have hlast : decide (reason ≠ .none) = true := decide_eq_true hr
  apply (drainTokens_leaves env hopen _).andThen
  intro t ht
  have hflush := flush_chunk_leaves env ht.open (if t.tokensCache.isEmpty then [] else t.decoded env)
    t.printedLen reason
  rw [hlast] at hflush
  apply hflush.andThen
  intro u hu
  have hdone : Completed u := hu.2
  exact Or.inl ⟨rfl, hu.1, hdone.completion, hdone.called⟩

end Write

section Run

inductive Op
  | write (token : Int)
  | writeAll (tokens : List Int)
  | finish (reason : FinishReason)
  | end
deriving DecidableEq

def Streamer.step (s : Streamer σ) : Op → Result σ
  | .write token => s.write env token
  | .writeAll tokens => s.writeAll env tokens
  | .finish reason => s.finish env reason
  | .end => s.end env

/-- A streamer and the calls made of it, with what they returned. -/
structure Session (σ : Type) where
  streamer : Streamer σ
  log : List (Op × Option StreamingStatus) := []

def Session.step (session : Session σ) (op : Op) : Session σ :=
  let (status, s) := session.streamer.step env op
  ⟨s, session.log ++ [(op, status)]⟩

def run (parser : σ) (ops : List Op) : Session σ :=
  ops.foldl (Session.step env) { streamer := fresh env parser }

theorem run_append (parser : σ) (ops : List Op) (op : Op) :
    run env parser (ops ++ [op]) = (run env parser ops).step env op := by
  rw [run, List.foldl_append]
  rfl

/-- No call finds the streamer open behind an `end`, and none hands over an empty list of
tokens once the streamer has been aborted. -/
def EndsLast (parser : σ) (ops : List Op) : Prop :=
  ∀ before op later, ops = before ++ op :: later →
    (.end ∈ before → (run env parser before).streamer.completion ≠ .open) ∧
    (op = .writeAll [] → (run env parser before).streamer.completion ≠ .aborted)

/-- What a call does once a streamer has been aborted: no callback, and the latched status. -/
def Latched (s : Streamer σ) (op : Op) (status : StreamingStatus) : Prop :=
  (s.step env op).2.called = s.called ∧ (op ≠ .end → (s.step env op).1 = some status)

/-- The completion protocol of a run. -/
structure CompletionProtocol (parser : σ) (ops : List Op) : Prop where
  /-- Nothing is called behind the last callback or one that asked to stop. -/
  last : ∀ earlier c later, (run env parser ops).streamer.called = earlier ++ c :: later →
    c.isLast = true ∨ c.status ≠ .running → later = []
  /-- What the callback has asked for is returned from then on. -/
  refused : ∀ before op later, ops = before ++ op :: later →
    ∀ c ∈ (run env parser before).streamer.called, c.status ≠ .running →
      Latched env (run env parser before).streamer op c.status
  /-- An exception of the parser cancels. -/
  failed : ∀ before op later, ops = before ++ op :: later →
    ∀ earlier, (earlier, none) ∈ (run env parser before).log →
      Latched env (run env parser before).streamer op .cancel
  /-- A finish that is repeated calls nothing. -/
  repeated : ∀ before reason later, ops = before ++ .finish reason :: later →
    ∀ first, (.finish first, some .running) ∈ (run env parser before).log →
      ((run env parser before).streamer.finish env reason).2.called =
          (run env parser before).streamer.called ∧
        ((run env parser before).streamer.finish env reason).1 =
          some (if reason = first then .running else .cancel)

/-- Where a run stands. -/
inductive Stage
  | open
  | failed
  | refused
  | finished (reason : FinishReason)
  | ended

/-- What the stage says of the streamer. -/
def Stage.Holds (s : Streamer σ) : Stage → Prop
  | .open => Open s
  | .failed => Failed s
  | .refused => Refused s
  | .finished reason =>
    s.completion = .finished ∧ s.finishedReason = some reason ∧ reason ≠ .none ∧ Completed s
  | .ended => s.completion = .open ∧ Completed s

/-- The stage and what has been returned on the way to it. -/
structure Standing (session : Session σ) (stage : Stage) : Prop where
  holds : stage.Holds session.streamer
  threw : ∀ op, (op, none) ∈ session.log → stage = .failed
  finished : ∀ reason, (.finish reason, some .running) ∈ session.log → stage = .finished reason
  ended : stage = .ended → .end ∈ session.log.map Prod.fst

/-- What a call of an open streamer leads to. -/
structure Leads (op : Op) (result : Result σ) (stage : Stage) : Prop where
  holds : stage.Holds result.2
  threw : result.1 = none → stage = .failed
  finished : ∀ reason, op = .finish reason → result.1 = some .running → stage = .finished reason
  ended : stage = .ended → op = .end

theorem Aborts.leads {op : Op} {result : Result σ} (h : Aborts result) : ∃ stage, Leads op result stage := by
  rcases h with ⟨hnone, hfailed⟩ | ⟨hsome, hrefused⟩
  · refine ⟨.failed, hfailed, fun _ => rfl, fun reason _ hrunning => ?_, by simp⟩
    rw [hnone] at hrunning
    cases hrunning
  · refine ⟨.refused, hrefused, fun hnone => ?_, fun reason _ hrunning => ?_, by simp⟩
    · rw [hsome] at hnone
      cases hnone
    · rw [hsome] at hrunning
      exact absurd (Option.some.inj hrunning) hrefused.status

theorem Leaves.leads {op : Op} {result : Result σ} (h : Leaves false result)
    (hop : ∀ reason, op ≠ .finish reason) : ∃ stage, Leads op result stage := by
  rcases h with ⟨hrunning, hgoes⟩ | haborts
  · refine ⟨.open, hgoes.open, fun hnone => ?_, fun reason hfinish => absurd hfinish (hop reason), by simp⟩
    rw [hrunning] at hnone
    cases hnone
  · exact haborts.leads

theorem write_leaves (h : Open s) (token : Int) : Leaves false (s.write env token) := by
  unfold Streamer.write
  rw [h.completion]
  exact writeToken_leaves env h token false

theorem writeAll_leaves (h : Open s) (tokens : List Int) : Leaves false (s.writeAll env tokens) := by
  induction tokens generalizing s with
  | nil => exact Or.inl ⟨rfl, h.goes⟩
  | cons token tokens ih =>
    apply (write_leaves env h token).andThen
    intro t ht
    exact ih ht.open

theorem finish_leads (h : Open s) (reason : FinishReason) :
    ∃ stage, Leads (.finish reason) (s.finish env reason) stage := by
  have hopen : s.completion ≠ .aborted ∧ s.completion ≠ .finished := by simp [h.completion]
  unfold Streamer.finish
  rw [if_neg hopen.1]
  split
  · exact ⟨.open, h, by simp, by simp, by simp⟩
  next hreason =>
    have hdrain := drain_terminal_leaves env h hreason
    rw [if_neg hopen.2]
    split
    next t heq =>
      rw [heq] at hdrain
      rcases hdrain with ⟨hrunning, _⟩ | ⟨_, hfailed⟩ | ⟨hsome, _⟩
      · cases hrunning
      · exact ⟨.failed, ⟨rfl, rfl, hfailed.quiet⟩, fun _ => rfl, by simp, by simp⟩
      · cases hsome
    next t heq =>
      rw [heq] at hdrain
      rcases hdrain with ⟨_, _, hdone⟩ | ⟨hnone, _⟩ | ⟨hsome, hrefused⟩
      · have hcompleted : Completed t := hdone
        refine ⟨.finished reason, ⟨rfl, rfl, hreason, by simp, hcompleted.called⟩, by simp, ?_, by simp⟩
        intro other hother _
        cases hother
        rfl
      · cases hnone
      · exact absurd (Option.some.inj hsome).symm hrefused.status
    next status t _ hrunning heq =>
      rw [heq] at hdrain
      rcases hdrain with ⟨hstatus, _⟩ | haborts
      · exact absurd hstatus (by simpa using hrunning)
      · exact haborts.leads

theorem end_leads (h : Open s) : ∃ stage, Leads .end (s.end env) stage := by
  have hdrain := drain_terminal_leaves env h (show FinishReason.stop ≠ .none by simp)
  unfold Streamer.end
  rw [if_neg (by simp [h.completion])]
  split
  next t heq =>
    rw [heq] at hdrain
    rcases hdrain with ⟨hrunning, _⟩ | ⟨_, hfailed⟩ | ⟨hsome, _⟩
    · cases hrunning
    · exact ⟨.failed, ⟨rfl, rfl, hfailed.quiet⟩, fun _ => rfl, by simp, by simp⟩
    · cases hsome
  next status t heq =>
    rw [heq] at hdrain
    rcases hdrain with ⟨_, hopen, hdone⟩ | ⟨hnone, _⟩ | ⟨_, hrefused⟩
    · exact ⟨.ended, ⟨hopen, hdone⟩, by simp, by simp, by simp⟩
    · cases hnone
    · exact ⟨.refused, hrefused, by simp, by simp, by simp⟩

theorem step_leads (h : Open s) (op : Op) : ∃ stage, Leads op (s.step env op) stage := by
  cases op with
  | write token => exact (write_leaves env h token).leads (by simp)
  | writeAll tokens => exact (writeAll_leaves env h tokens).leads (by simp)
  | finish reason => exact finish_leads env h reason
  | «end» => exact end_leads env h

/-- An aborted streamer changes no more. -/
theorem step_aborted (h : s.completion = .aborted) (hs : s.abortStatus ≠ .running) {op : Op}
    (hop : op ≠ .writeAll []) :
    s.step env op = (some (if op = .end then .running else s.abortStatus), s) := by
  have hwrite (token : Int) : s.write env token = (some s.abortStatus, s) := by
    unfold Streamer.write
    rw [h]
  cases op with
  | write token => exact hwrite token
  | writeAll tokens =>
    cases tokens with
    | nil => exact absurd rfl hop
    | cons token tokens =>
      show (s.write env token).andThen _ = _
      rw [hwrite]
      cases hstatus : s.abortStatus with
      | running => exact absurd hstatus hs
      | stop | cancel => rfl
  | finish reason => exact if_pos h
  | «end» => exact if_pos (by simp [h])

/-- A finish that is repeated asks for the same reason or is refused. -/
theorem finish_finished (h : s.completion = .finished) {first : FinishReason}
    (hfirst : s.finishedReason = some first) (hne : first ≠ .none) (reason : FinishReason) :
    s.finish env reason = (some (if reason = first then .running else .cancel), s) := by
  unfold Streamer.finish
  rw [if_neg (by simp [h]), hfirst]
  by_cases hreason : reason = first
  · rw [if_neg (by rw [hreason]; exact hne), if_pos h, if_pos (by rw [hreason]), if_pos hreason]
  · have hother : ¬ some first = some reason := fun hsame => hreason (Option.some.inj hsame).symm
    rw [if_neg hreason]
    by_cases hnone : reason = .none
    · rw [if_pos hnone]
    · rw [if_neg hnone, if_pos h, if_neg hother]

/-- A finished streamer changes no more. -/
theorem step_finished (h : s.completion = .finished) {first : FinishReason}
    (hfirst : s.finishedReason = some first) (hne : first ≠ .none) (op : Op) :
    (s.step env op).2 = s ∧ (s.step env op).1 ≠ none := by
  have hwrite (token : Int) : s.write env token = (some .cancel, s) := by
    unfold Streamer.write
    rw [h]
  cases op with
  | write token =>
    show (s.write env token).2 = s ∧ (s.write env token).1 ≠ none
    rw [hwrite]
    simp
  | writeAll tokens =>
    cases tokens with
    | nil => exact ⟨rfl, by simp [Streamer.step, Streamer.writeAll]⟩
    | cons token tokens =>
      show ((s.write env token).andThen _).2 = s ∧ ((s.write env token).andThen _).1 ≠ none
      rw [hwrite]
      simp [Result.andThen]
  | finish reason =>
    show (s.finish env reason).2 = s ∧ (s.finish env reason).1 ≠ none
    rw [finish_finished env h hfirst hne]
    simp
  | «end» =>
    show (s.end env).2 = s ∧ (s.end env).1 ≠ none
    unfold Streamer.end
    rw [if_pos (by simp [h])]
    simp

theorem run_ops (parser : σ) (ops : List Op) : (run env parser ops).log.map Prod.fst = ops := by
  induction ops using List.reverseRecOn with
  | nil => rfl
  | append_singleton ops op ih =>
    rw [run_append, Session.step]
    simp [ih]

theorem EndsLast.init {parser : σ} {ops : List Op} {op : Op} (h : EndsLast env parser (ops ++ [op])) :
    EndsLast env parser ops := by
  rintro before other later rfl
  exact h before other (later ++ [op]) (by simp)

/-- Failing and refusing streamers have been aborted, with a status that says so. -/
theorem Stage.aborted {stage : Stage} (hstage : stage = .failed ∨ stage = .refused) (h : stage.Holds s) :
    s.completion = .aborted ∧ s.abortStatus ≠ .running := by
  rcases hstage with rfl | rfl
  · exact ⟨Failed.completion h, by simp [Failed.status h]⟩
  · exact ⟨Refused.completion h, Refused.status h⟩

/-- A call that leaves the streamer as it is leaves the stage as it is. -/
theorem Standing.stay {session : Session σ} {stage : Stage} (h : Standing session stage) {op : Op}
    (hstay : (session.streamer.step env op).2 = session.streamer)
    (hthrew : (session.streamer.step env op).1 ≠ none)
    (hfinished : ∀ reason, op = .finish reason → (session.streamer.step env op).1 = some .running →
      stage = .finished reason) : Standing (session.step env op) stage where
  holds := by
    have hholds := h.holds
    rw [← hstay] at hholds
    exact hholds
  threw other hm := by
    rcases List.mem_append.mp hm with hm | hm
    · exact h.threw other hm
    · obtain ⟨rfl, hnone⟩ := Prod.mk.inj (List.mem_singleton.mp hm)
      exact absurd hnone.symm hthrew
  finished reason hm := by
    rcases List.mem_append.mp hm with hm | hm
    · exact h.finished reason hm
    · obtain ⟨hop, hstatus⟩ := Prod.mk.inj (List.mem_singleton.mp hm)
      exact hfinished reason hop.symm hstatus.symm
  ended hs := by
    have hmem := h.ended hs
    simp [Session.step, hmem]

/-- Behind its stage a call leads on. -/
theorem Standing.lead {session : Session σ} (h : Standing session .open) {op : Op} {stage : Stage}
    (hl : Leads op (session.streamer.step env op) stage) : Standing (session.step env op) stage where
  holds := hl.holds
  threw other hm := by
    rcases List.mem_append.mp hm with hm | hm
    · cases h.threw other hm
    · obtain ⟨rfl, hnone⟩ := Prod.mk.inj (List.mem_singleton.mp hm)
      exact hl.threw hnone.symm
  finished reason hm := by
    rcases List.mem_append.mp hm with hm | hm
    · cases h.finished reason hm
    · obtain ⟨hop, hstatus⟩ := Prod.mk.inj (List.mem_singleton.mp hm)
      exact hl.finished reason hop.symm hstatus.symm
  ended hs := by
    have hend := hl.ended hs
    simp [Session.step, hend]

theorem run_standing (parser : σ) {ops : List Op} (h : EndsLast env parser ops) :
    ∃ stage, Standing (run env parser ops) stage := by
  induction ops using List.reverseRecOn with
  | nil => exact ⟨.open, ⟨⟨rfl, by simp [Quiet, run, fresh]⟩, by simp [run], by simp [run], by simp⟩⟩
  | append_singleton ops op ih =>
    obtain ⟨stage, hstanding⟩ := ih (EndsLast.init env h)
    obtain ⟨hends, hempty⟩ := h ops op [] rfl
    rw [run_append]
    have haborted (hstage : stage = .failed ∨ stage = .refused) :
        Standing ((run env parser ops).step env op) stage := by
      obtain ⟨hcompletion, hstatus⟩ := Stage.aborted hstage hstanding.holds
      have hop : op ≠ .writeAll [] := fun hop => hempty hop hcompletion
      have hstep := step_aborted env hcompletion hstatus hop
      refine Standing.stay env hstanding (by rw [hstep]) (by rw [hstep]; simp) ?_
      rintro reason rfl hrunning
      rw [hstep] at hrunning
      exact absurd (Option.some.inj hrunning) hstatus
    cases stage with
    | «open» =>
      obtain ⟨stage, hleads⟩ := step_leads env hstanding.holds op
      exact ⟨stage, Standing.lead env hstanding hleads⟩
    | failed => exact ⟨.failed, haborted (Or.inl rfl)⟩
    | refused => exact ⟨.refused, haborted (Or.inr rfl)⟩
    | finished first =>
      obtain ⟨hcompletion, hfirst, hne, _⟩ := hstanding.holds
      obtain ⟨hstay, hthrew⟩ := step_finished env hcompletion hfirst hne op
      refine ⟨.finished first, Standing.stay env hstanding hstay hthrew ?_⟩
      rintro reason rfl hrunning
      have hfinish : ((run env parser ops).streamer.finish env reason).1 = some .running := hrunning
      rw [finish_finished env hcompletion hfirst hne] at hfinish
      by_cases hreason : reason = first
      · rw [hreason]
      · simp [hreason] at hfinish
    | ended =>
      have hmem := hstanding.ended rfl
      rw [run_ops] at hmem
      exact absurd hstanding.holds.1 (hends hmem)

/-- Callbacks behind quiet ones: only the very last may be the last one or ask to stop. -/
theorem called_last {called earlier later : List Call} {c d : Call} {init : List Call}
    (hcalled : called = init ++ [d]) (hquiet : Quiet init) (hsplit : called = earlier ++ c :: later)
    (hc : c.isLast = true ∨ c.status ≠ .running) : later = [] := by
  by_contra hne
  have hmem : c ∈ init := by
    have heq : init ++ [d] = (earlier ++ c :: later.dropLast) ++ [later.getLast hne] := by
      rw [← hcalled, hsplit, List.append_assoc, List.cons_append, List.dropLast_append_getLast]
    have hinit := (List.append_inj' heq rfl).1
    simp [hinit]
  obtain ⟨hlast, hrunning⟩ := hquiet c hmem
  rcases hc with hc | hc
  · simp [hlast] at hc
  · exact hc hrunning

theorem quiet_none {called earlier later : List Call} {c : Call} (hquiet : Quiet called)
    (hsplit : called = earlier ++ c :: later) (hc : c.isLast = true ∨ c.status ≠ .running) : False := by
  obtain ⟨hlast, hrunning⟩ := hquiet c (by simp [hsplit])
  rcases hc with hc | hc
  · simp [hlast] at hc
  · exact hc hrunning

/-- A status that is not running has been latched. -/
theorem Stage.refused_of_called {stage : Stage} (h : stage.Holds s) {c : Call} (hm : c ∈ s.called)
    (hc : c.status ≠ .running) : stage = .refused ∧ c.status = s.abortStatus := by
  have hnone {earlier : List Call} {d : Call} (hcalled : s.called = earlier ++ [d]) (hquiet : Quiet earlier) :
      c = d := by
    rw [hcalled] at hm
    rcases List.mem_append.mp hm with hm | hm
    · exact absurd (hquiet c hm).2 hc
    · exact List.mem_singleton.mp hm
  cases stage with
  | «open» => exact absurd (Open.quiet h c hm).2 hc
  | failed => exact absurd (Failed.quiet h c hm).2 hc
  | refused =>
    obtain ⟨earlier, d, hcalled, hquiet, hstatus⟩ := Refused.called h
    exact ⟨rfl, by rw [hnone hcalled hquiet, hstatus]⟩
  | finished reason =>
    obtain ⟨earlier, d, hcalled, hquiet, _, hstatus⟩ := Completed.called h.2.2.2
    exact absurd (by rw [hnone hcalled hquiet, hstatus]) hc
  | ended =>
    obtain ⟨earlier, d, hcalled, hquiet, _, hstatus⟩ := Completed.called h.2
    exact absurd (by rw [hnone hcalled hquiet, hstatus]) hc

theorem latched_of_aborted (h : s.completion = .aborted) (hs : s.abortStatus ≠ .running) {op : Op}
    (hop : op ≠ .writeAll []) : Latched env s op s.abortStatus := by
  have hstep := step_aborted env h hs hop
  refine ⟨by rw [hstep], fun hend => ?_⟩
  rw [hstep, if_neg hend]

theorem EndsLast.before {parser : σ} {before later : List Op} (h : EndsLast env parser (before ++ later)) :
    EndsLast env parser before := by
  rintro first op rest rfl
  exact h first op (rest ++ later) (by simp)

/-- It is enough that `end` comes last. -/
theorem endsLast_of_dropLast (parser : σ) {ops : List Op} (hend : .end ∉ ops.dropLast)
    (hempty : .writeAll [] ∉ ops) : EndsLast env parser ops := by
  rintro before op later rfl
  refine ⟨fun hmem => ?_, fun hop => ?_⟩
  · refine absurd ?_ hend
    rw [List.dropLast_append_of_ne_nil (by simp)]
    exact List.mem_append_left _ hmem
  · refine absurd ?_ hempty
    simp [hop]

/-- Runs that end with `end` keep the completion protocol. -/
theorem completes_once (parser : σ) (ops : List Op) (h : EndsLast env parser ops) :
    CompletionProtocol env parser ops where
  last earlier c later hsplit hc := by
    obtain ⟨stage, hstanding⟩ := run_standing env parser h
    have hholds := hstanding.holds
    cases stage with
    | «open» => exact (quiet_none (Open.quiet hholds) hsplit hc).elim
    | failed => exact (quiet_none (Failed.quiet hholds) hsplit hc).elim
    | refused =>
      obtain ⟨_, _, hcalled, hquiet, _⟩ := Refused.called hholds
      exact called_last hcalled hquiet hsplit hc
    | finished reason =>
      obtain ⟨_, _, hcalled, hquiet, _⟩ := Completed.called hholds.2.2.2
      exact called_last hcalled hquiet hsplit hc
    | ended =>
      obtain ⟨_, _, hcalled, hquiet, _⟩ := Completed.called hholds.2
      exact called_last hcalled hquiet hsplit hc
  refused before op later hops c hm hc := by
    subst hops
    obtain ⟨stage, hstanding⟩ := run_standing env parser (EndsLast.before env h)
    obtain ⟨hstage, hstatus⟩ := Stage.refused_of_called hstanding.holds hm hc
    obtain ⟨hcompletion, hrunning⟩ := Stage.aborted (Or.inr hstage) hstanding.holds
    rw [hstatus]
    exact latched_of_aborted env hcompletion hrunning fun hop => (h before op later rfl).2 hop hcompletion
  failed before op later hops earlier hm := by
    subst hops
    obtain ⟨stage, hstanding⟩ := run_standing env parser (EndsLast.before env h)
    obtain rfl := hstanding.threw earlier hm
    have hfailed : Failed (run env parser before).streamer := hstanding.holds
    have hrunning : (run env parser before).streamer.abortStatus ≠ .running := by simp [hfailed.status]
    rw [← hfailed.status]
    exact latched_of_aborted env hfailed.completion hrunning fun hop =>
      (h before op later rfl).2 hop hfailed.completion
  repeated before reason later hops first hm := by
    subst hops
    obtain ⟨stage, hstanding⟩ := run_standing env parser (EndsLast.before env h)
    obtain rfl := hstanding.finished first hm
    obtain ⟨hcompletion, hfirst, hne, _⟩ := hstanding.holds
    rw [finish_finished env hcompletion hfirst hne]
    exact ⟨rfl, rfl⟩

/-- No output parser, and a callback that never asks to stop. -/
def plainEnvironment : Environment Unit where
  decode _ tokens := tokens.map Int.toNat |>.map UInt8.ofNat
  outputParser := none
  toolsAvailable := false
  userWantsSpecial := false
  callback _ _ _ := .running

theorem completes_once_written :
    CompletionProtocol plainEnvironment ()
      [.write 72, .finish .length, .write 73, .finish .length, .finish .stop, .end] :=
  completes_once plainEnvironment () _ (endsLast_of_dropLast plainEnvironment () (by decide) (by decide))

/-- Ending twice makes two last callbacks. -/
theorem completes_twice : ¬ CompletionProtocol plainEnvironment () [.end, .end] := by
  intro h
  have hcalled : (run plainEnvironment () [.end, .end]).streamer.called =
      [] ++ ⟨.finish, true, .running⟩ :: [⟨.finish, true, .running⟩] := by decide
  have hnil := h.last _ _ _ hcalled (Or.inl rfl)
  cases hnil

end Run

end ModelServer.OVMSTextStreamer
