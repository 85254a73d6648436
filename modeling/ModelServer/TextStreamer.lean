import ModelServer.Delta
import ModelServer.Loop

namespace ModelServer

/-- `ov::genai::StreamingStatus`. -/
inductive StreamingStatus
  | running
  | stop
  | cancel
deriving DecidableEq

/-- An output parser as a streamer uses it; `none` stands for an exception. The pending
deltas of a parser come to an end. -/
structure StreamParser (σ : Type) where
  parseChunk : σ → Str → List Int → Bool → FinishReason → Option (Option Delta × σ)
  drainPendingDelta : σ → Option (Option Delta × σ)
  needSpecialTokensForCurrentDecode : σ → Bool → Bool
  getPhaseStartTagForToken : σ → Int → Bool → Str
  pending : σ → Nat
  drains : ∀ {s t : σ} {d : Delta}, drainPendingDelta s = some (some d, t) → pending t < pending s

namespace OVMSTextStreamer

/-- A call of the callback and what it has answered. -/
structure Call where
  delta : Delta
  isLast : Bool
  status : StreamingStatus
deriving DecidableEq

/-- The slice of a decoded text that a flush has given on. -/
structure Flush where
  printedLen : Nat
  printUntil : Nat
  textLen : Nat
deriving DecidableEq

structure Environment (σ : Type) where
  /-- `m_tokenizer.decode` with or without the special tokens. -/
  decode : Bool → List Int → Str
  outputParser : Option (StreamParser σ)
  toolsAvailable : Bool
  userWantsSpecial : Bool
  /-- What the callback answers, after the calls it has had. -/
  callback : List Call → Delta → Bool → StreamingStatus

inductive CompletionState
  | open
  | finished
  | aborted
deriving DecidableEq

/-- The state of a streamer; `called` and `flushed` record what it has done so far. -/
structure Streamer (σ : Type) where
  parser : σ
  completion : CompletionState := .open
  hadParserError : Bool := false
  finishedReason : Option FinishReason := none
  abortStatus : StreamingStatus := .cancel
  decodeSpecialTokens : Bool
  tokensCache : List Int := []
  decodedLengths : List Int := []
  printedLen : Nat := 0
  called : List Call := []
  flushed : List Flush := []

def DELAY_N_TOKENS : Nat := 3

/-- U+FFFD in UTF-8. -/
def replacement : Str := [0xEF, 0xBF, 0xBD]

def is_incomplete (text : Str) : Bool := replacement.isSuffixOf text

/-- The binary search of `std::upper_bound` on the `len` entries behind `first`. -/
def upperBoundFrom (lengths : List Int) (value : Int) (first len : Nat) : Nat :=
  if h : len = 0 then first
  else
    let half := len / 2
    if value < lengths.getD (first + half) 0 then upperBoundFrom lengths value first half
    else upperBoundFrom lengths value (first + half + 1) (len - half - 1)
termination_by len

def upper_bound (lengths : List Int) (value : Int) : Nat :=
  upperBoundFrom lengths value 0 lengths.length

/-- What becomes of a call: a status or, as `none`, an exception. -/
abbrev Result (σ : Type) := Option StreamingStatus × Streamer σ

/-- Goes on where the streamer is still running. -/
def Result.andThen {σ : Type} (result : Result σ) (next : Streamer σ → Result σ) : Result σ :=
  match result with
  | (some .running, s) => next s
  | (status, s) => (status, s)

namespace Streamer

variable {σ : Type} (env : Environment σ)

def clearCache (s : Streamer σ) : Streamer σ :=
  { s with tokensCache := [], decodedLengths := [], printedLen := 0 }

def apply_decode_params (s : Streamer σ) (decodeSpecialTokens : Bool) : Streamer σ :=
  { s with decodeSpecialTokens := decodeSpecialTokens }

def latch_failure (s : Streamer σ) : Streamer σ :=
  { s.clearCache with completion := .aborted, abortStatus := .cancel }

def observe (s : Streamer σ) (status : StreamingStatus) : StreamingStatus × Streamer σ :=
  if s.completion = .aborted then (s.abortStatus, s)
  else if status = .running then (status, s)
  else (status, { s.clearCache with completion := .aborted, abortStatus := status })

/-- `observe(m_callback(delta, isLast))`. -/
def call (s : Streamer σ) (delta : Delta) (isLast : Bool) : StreamingStatus × Streamer σ :=
  let status := env.callback s.called delta isLast
  observe { s with called := s.called ++ [⟨delta, isLast, status⟩] } status

/-- An exception of the parser. -/
def parserFailure (s : Streamer σ) : Streamer σ := { s.latch_failure with hadParserError := true }

def parse (s : Streamer σ) (chunk : Str) (tokens : List Int) (finishReason : FinishReason) :
    Option (Option Delta × Streamer σ) :=
  match env.outputParser with
  | none => some (if chunk.isEmpty then none else some (.content chunk), s)
  | some parser =>
    (parser.parseChunk s.parser chunk tokens env.toolsAvailable finishReason).map fun (delta, t) =>
      (delta, { s with parser := t })

/-- How the drain loop is left: with the delta still to be given out, or out of the function. -/
inductive Drained
  | delta (delta : Option Delta)
  | leave (status : Option StreamingStatus)

/-- The body of the `for` loop of `flush_chunk`. -/
def drainBody (parser : StreamParser σ) (state : Option Delta × Streamer σ) :
    (Option Delta × Streamer σ) ⊕ (Drained × Streamer σ) :=
  let (delta, s) := state
  match parser.drainPendingDelta s.parser with
  | none => .inr (.leave none, s.parserFailure)
  | some (none, t) => .inr (.delta delta, { s with parser := t })
  | some (some next, t) =>
    let s : Streamer σ := { s with parser := t }
    match delta with
    | none => .inl (some next, s)
    | some delta =>
      match s.call env delta false with
      | (.running, s) => .inl (some next, s)
      | (status, s) => .inr (.leave (some status), s)

def drainDeltas (s : Streamer σ) (delta : Option Delta) : Drained × Streamer σ :=
  match env.outputParser with
  | none => (.delta delta, s)
  | some parser =>
    Loop.run (drainBody env parser) (parser.pending s.parser + 1) (.delta delta, s) (delta, s)

/-- The end of `flush_chunk`. -/
def giveOut (s : Streamer σ) (delta : Option Delta) (isLast : Bool) : StreamingStatus × Streamer σ :=
  match delta with
  | some delta => s.call env delta isLast
  | none => if isLast then s.call env .finish true else (.running, s)

def flush_chunk (s : Streamer σ) (text : Str) (printUntil : Nat) (finishReason : FinishReason) : Result σ :=
  let chunk := substr text s.printedLen (printUntil - s.printedLen)
  let first := upper_bound s.decodedLengths s.printedLen
  let last := upper_bound s.decodedLengths printUntil
  let tokens := (s.tokensCache.take last).drop first
  let s : Streamer σ := { s with
    printedLen := printUntil
    flushed := s.flushed ++ [⟨s.printedLen, printUntil, text.length⟩] }
  match s.parse env chunk tokens finishReason with
  | none => (none, s.parserFailure)
  | some (delta, s) =>
    match s.drainDeltas env delta with
    | (.leave status, s) => (status, s)
    | (.delta delta, s) =>
      let (status, s) := s.giveOut env delta (decide (finishReason ≠ .none))
      (some status, s)

/-- The whole cache with the decode parameters in force. -/
def decoded (s : Streamer σ) : Str := env.decode s.decodeSpecialTokens s.tokensCache

/-- Gives on what the cache holds. -/
def flushPending (s : Streamer σ) : Result σ :=
  if s.tokensCache.isEmpty then (some .running, s)
  else if (s.decoded env).length > s.printedLen then
    s.flush_chunk env (s.decoded env) (s.decoded env).length .none
  else (some .running, s)

/-- A token that starts a phase: its tag is given on at once. -/
def flushStartTag (parser : StreamParser σ) (token : Int) (startTag : Str) (s : Streamer σ) : Result σ :=
  let s : Streamer σ := { s with tokensCache := [token], decodedLengths := [startTag.length], printedLen := 0 }
  match s.flush_chunk env startTag startTag.length .none with
  | (none, s) => (none, s)
  | (some status, s) =>
    (some status, s.clearCache.apply_decode_params
      (parser.needSpecialTokensForCurrentDecode s.parser env.userWantsSpecial))

/-- `none` where the token is still to be decoded. -/
def handle_decoding_params_change (s : Streamer σ) (token : Int) : Option (Result σ) × Streamer σ :=
  match env.outputParser with
  | none => (none, s)
  | some parser =>
    let startTag := if s.decodeSpecialTokens then []
      else parser.getPhaseStartTagForToken s.parser token env.toolsAvailable
    if !startTag.isEmpty then
      (some ((s.flushPending env).andThen (flushStartTag env parser token startTag)), s)
    else
      let decodeWithSpecialTokens :=
        parser.needSpecialTokensForCurrentDecode s.parser env.userWantsSpecial
      if decodeWithSpecialTokens = s.decodeSpecialTokens then (none, s)
      else
        match s.flushPending env with
        | (some .running, s) => (none, s.clearCache.apply_decode_params decodeWithSpecialTokens)
        | (status, t) => (some (status, t), s)

/-- `write` behind `handle_decoding_params_change`. -/
def decodeToken (s : Streamer σ) (token : Int) (immediateFlush : Bool) : Result σ :=
  let s : Streamer σ := { s with tokensCache := s.tokensCache ++ [token] }
  let text := s.decoded env
  let s : Streamer σ := { s with decodedLengths := s.decodedLengths ++ [(text.length : Int)] }
  if text.getLast? = some (char '\n') ∧ text.length > s.printedLen then
    match s.flush_chunk env text text.length .none with
    | (none, s) => (none, s)
    | (some status, s) => (some status, s.clearCache)
  else if is_incomplete text then
    (some .running, { s with decodedLengths := s.decodedLengths.dropLast ++ [-1] })
  else if immediateFlush then
    if text.length > s.printedLen then s.flush_chunk env text text.length .none else (some .running, s)
  else if s.decodedLengths.length < DELAY_N_TOKENS then (some .running, s)
  else
    let printUntilLen := s.decodedLengths.getD (s.decodedLengths.length - DELAY_N_TOKENS) 0
    if printUntilLen ≤ 0 ∨ printUntilLen.toNat ≤ s.printedLen then (some .running, s)
    else s.flush_chunk env text printUntilLen.toNat .none

def writeToken (s : Streamer σ) (token : Int) (immediateFlush : Bool) : Result σ :=
  match s.handle_decoding_params_change env token with
  | (some result, _) => result
  | (none, s) => s.decodeToken env token immediateFlush

def write (s : Streamer σ) (token : Int) : Result σ :=
  match s.completion with
  | .aborted => (some s.abortStatus, s)
  | .finished => (some .cancel, s)
  | .open => s.writeToken env token false

/-- The overload for several tokens. -/
def writeAll (s : Streamer σ) : List Int → Result σ
  | [] => (some .running, s)
  | token :: tokens => (s.write env token).andThen fun s => s.writeAll tokens

/-- Tokens that have been given on and stay as context of those behind them. -/
def printed (s : Streamer σ) : Nat :=
  (s.decodedLengths.takeWhile fun length => 0 < length && length.toNat ≤ s.printedLen).length

/-- The loop of `drain_terminal` over the unprinted tokens. -/
def drainTokens (s : Streamer σ) : List Int → Result σ
  | [] => (some .running, s)
  | token :: tokens =>
    match s.writeToken env token true with
    | (some .running, s) => s.drainTokens tokens
    | (none, s) => (none, s)
    | (some status, s) =>
      let (status, s) := s.observe status
      (some status, s)

def drain_terminal (s : Streamer σ) (reason : FinishReason) : Result σ :=
  let unprinted := s.tokensCache.drop s.printed
  let s : Streamer σ := { s with
    tokensCache := s.tokensCache.take s.printed
    decodedLengths := s.decodedLengths.take s.printed }
  (s.drainTokens env unprinted).andThen fun s =>
    let finalText := if s.tokensCache.isEmpty then [] else s.decoded env
    (s.flush_chunk env finalText s.printedLen reason).andThen fun s => (some .running, s.clearCache)

/-- The result of `end` is not returned. -/
def «end» (s : Streamer σ) : Result σ :=
  if s.completion ≠ .open then (some .running, s)
  else
    match s.drain_terminal env .stop with
    | (none, s) => (none, s.latch_failure)
    | (some _, s) => (some .running, s)

def finish (s : Streamer σ) (reason : FinishReason) : Result σ :=
  if s.completion = .aborted then (some s.abortStatus, s)
  else if reason = .none then (some .cancel, s)
  else if s.completion = .finished then
    (some (if s.finishedReason = some reason then .running else .cancel), s)
  else
    match s.drain_terminal env reason with
    | (none, s) => (none, s.latch_failure)
    | (some .running, s) =>
      (some .running, { s with completion := .finished, finishedReason := some reason })
    | (status, s) => (status, s)

end Streamer

/-- A streamer that has just been constructed. -/
def fresh {σ : Type} (env : Environment σ) (parser : σ) : Streamer σ where
  parser := parser
  decodeSpecialTokens :=
    match env.outputParser with
    | none => env.userWantsSpecial
    | some p => p.needSpecialTokensForCurrentDecode parser env.userWantsSpecial

end OVMSTextStreamer

end ModelServer
