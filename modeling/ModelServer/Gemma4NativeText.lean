import ModelServer.RapidJson

namespace ModelServer.Gemma4ToolParser

def TOOL_CALL_START_TAG : Str := bytes "<|tool_call>"
def TOOL_CALL_END_TAG : Str := bytes "<tool_call|>"
def TOOL_CALL_NAME_PREFIX : Str := bytes "call:"
def TOOL_ARGS_START_INDICATOR : Str := bytes "\x7b"
def TOOL_ARGS_STRING_INDICATOR : Str := bytes "<|\"|>"
def TURN_END_TAG : Str := bytes "<turn|>"
def TOOL_RESPONSE_START_TAG : Str := bytes "<|tool_response>"

def MAX_NATIVE_TOOL_CANDIDATE_BYTES : Nat := 64 * 1024
def MAX_NATIVE_TOOL_CONTAINER_DEPTH : Nat := 64

def openBrace : Byte := 123
def closeBrace : Byte := 125
def openBracket : Byte := 91
def closeBracket : Byte := 93
def openParen : Byte := 40
def closeParen : Byte := 41
def quote : Byte := 34
def backslash : Byte := 92

def saneToolName (name : Str) : Bool :=
  !name.isEmpty && name.all fun c => isalnum c || c == char '_' || c == char '-' || c == char '.'

section Scanner

/-- What `findMatchingContainerEnd` returns and sets, as offsets from the opening bracket. -/
structure ContainerEnd where
  close : Option Nat := none
  malformedEndTag : Option Nat := none
  candidateLimitExceeded : Bool := false
deriving DecidableEq

inductive ScanMode
  | plain
  | quoted (escaped : Bool)
deriving DecidableEq

def closerOf (c : Byte) : Option Byte :=
  if c = openBrace then some closeBrace
  else if c = openBracket then some closeBracket
  else if c = openParen then some closeParen
  else none

def isCloser (c : Byte) : Bool := c == closeBrace || c == closeBracket || c == closeParen

/-- Whether the text has a quote that no backslash escapes. -/
def hasQuote : Bool → Str → Bool
  | _, [] => false
  | true, _ :: cs => hasQuote false cs
  | false, c :: cs =>
    if c = backslash then hasQuote true cs else if c = quote then true else hasQuote false cs

def nextStart (after : Str) : Option Nat :=
  Occurrence.indexOf? (TOOL_CALL_START_TAG ++ TOOL_CALL_NAME_PREFIX) after

/-- Behind an end tag within quotes: a quote comes before the next envelope. -/
def quoteBeforeNext (after : Str) : Bool :=
  match nextStart after with
  | some start => hasQuote false (after.take start)
  | none => hasQuote false after

/-- The candidate is too long or too deep; its end tag is looked for in `rest`, which begins at `offset`. -/
def limitExceeded (offset : Nat) (rest : Str) : ContainerEnd where
  malformedEndTag := (Occurrence.indexOf? TOOL_CALL_END_TAG rest).map (offset + ·)
  candidateLimitExceeded := true

/-- A native string that is not closed yet: its end tag counts once the next envelope has begun. -/
def unclosedString (offset : Nat) (inside : Str) : ContainerEnd :=
  match Occurrence.indexOf? TOOL_CALL_END_TAG inside with
  | none => {}
  | some envelopeEnd =>
    if (nextStart (inside.drop (envelopeEnd + TOOL_CALL_END_TAG.length))).isSome then
      { malformedEndTag := some (offset + envelopeEnd) }
    else {}

/-- The loop of `findMatchingContainerEnd`: `offset` bytes have been read since the
opening bracket, `skip` more are known to belong to a native string. -/
def scan (offset skip : Nat) (mode : ScanMode) (closers : List Byte) (malformed : Bool) :
    Str → ContainerEnd
  | [] => {}
  | c :: cs =>
    match skip with
    | skip + 1 => scan (offset + 1) skip mode closers malformed cs
    | 0 =>
      if offset > MAX_NATIVE_TOOL_CANDIDATE_BYTES then limitExceeded offset (c :: cs)
      else
        match mode with
        | .quoted escaped =>
          let after := cs.drop (TOOL_CALL_END_TAG.length - 1)
          if !escaped && TOOL_CALL_END_TAG.isPrefixOf (c :: cs) && !quoteBeforeNext after then
            if (nextStart after).isSome then { malformedEndTag := some offset } else {}
          else if escaped then scan (offset + 1) 0 (.quoted false) closers malformed cs
          else if c = backslash then scan (offset + 1) 0 (.quoted true) closers malformed cs
          else if c = quote then scan (offset + 1) 0 .plain closers malformed cs
          else scan (offset + 1) 0 (.quoted false) closers malformed cs
        | .plain =>
          let marker := TOOL_ARGS_STRING_INDICATOR.length
          if TOOL_ARGS_STRING_INDICATOR.isPrefixOf (c :: cs) then
            let inside := cs.drop (marker - 1)
            match Occurrence.indexOf? TOOL_ARGS_STRING_INDICATOR inside with
            | none =>
              if offset + (c :: cs).length > MAX_NATIVE_TOOL_CANDIDATE_BYTES then
                limitExceeded (offset + marker) inside
              else unclosedString (offset + marker) inside
            | some stringEnd =>
              if offset + marker + stringEnd > MAX_NATIVE_TOOL_CANDIDATE_BYTES then
                limitExceeded (offset + marker + stringEnd) (inside.drop stringEnd)
              else scan (offset + 1) (marker + stringEnd + marker - 1) .plain closers malformed cs
          else if c = quote then scan (offset + 1) 0 (.quoted false) closers malformed cs
          else if TOOL_CALL_END_TAG.isPrefixOf (c :: cs) then { malformedEndTag := some offset }
          else
            match closerOf c with
            | some closer =>
              if closers.length ≥ MAX_NATIVE_TOOL_CONTAINER_DEPTH then
                limitExceeded offset (c :: cs)
              else scan (offset + 1) 0 .plain (closer :: closers) malformed cs
            | none =>
              if isCloser c then
                if closers.head? ≠ some c then scan (offset + 1) 0 .plain closers true cs
                else if closers.tail.isEmpty && !malformed then { close := some offset }
                else scan (offset + 1) 0 .plain closers.tail malformed cs
              else scan (offset + 1) 0 .plain closers malformed cs

/-- The container opens just before `bodyPos`; the positions are those of `text`. -/
def findMatchingContainerEnd (text : Str) (bodyPos : Nat) (openChar closeChar : Byte) :
    ContainerEnd :=
  match bodyPos with
  | 0 => {}
  | openPos + 1 =>
    if text[openPos]? ≠ some openChar then {}
    else
      let found := scan 1 0 .plain [closeChar] false (text.drop (openPos + 1))
      { found with
        close := found.close.map (openPos + ·)
        malformedEndTag := found.malformedEndTag.map (openPos + ·) }

end Scanner

section NativeValueParser

/-! `NativeValueParser`: `rest` is the input from `pos` on. A method returns what it has
written and the input that is left, or `none` for `false`. -/

variable (rj : RapidJson)

def skipWs (rest : Str) : Str := rest.dropWhile isspace

def writeJsonScalar (token : Str) : Option Json.Event :=
  match rj.normalizeJsonLosslessly token with
  | none => none
  | some normalized =>
    match normalized with
    | [] => none
    | first :: _ =>
      if first = quote || first = char 't' || first = char 'f' || first = char 'n' ||
          first = char '-' || isdigit first then some (.raw normalized)
      else none

/-- The text between two string markers. -/
def delimited (rest : Str) : Option (Str × Str) :=
  if TOOL_ARGS_STRING_INDICATOR.isPrefixOf rest then
    let inside := rest.drop TOOL_ARGS_STRING_INDICATOR.length
    match Occurrence.indexOf? TOOL_ARGS_STRING_INDICATOR inside with
    | none => none
    | some stringEnd =>
      some (inside.take stringEnd, inside.drop (stringEnd + TOOL_ARGS_STRING_INDICATOR.length))
  else none

def parseDelimitedString (rest : Str) : Option (List Json.Event × Str) :=
  match delimited rest with
  | none => none
  | some (raw, rest) => some ([.raw (rj.escapeAsJsonString raw)], rest)

/-- The number of bytes up to the quote that ends a JSON string, with it. -/
def closingQuote : Bool → Str → Option Nat
  | _, [] => none
  | true, _ :: cs => (closingQuote false cs).map (· + 1)
  | false, c :: cs =>
    if c = backslash then (closingQuote true cs).map (· + 1)
    else if c = quote then some 1
    else (closingQuote false cs).map (· + 1)

/-- A JSON string with its quotes. -/
def quotedToken (rest : Str) : Option (Str × Str) :=
  match rest with
  | [] => none
  | c :: cs =>
    if c = quote then (closingQuote false cs).map fun n => (c :: cs.take n, cs.drop n) else none

def parseJsonString (rest : Str) : Option (List Json.Event × Str) :=
  match quotedToken rest with
  | none => none
  | some (token, rest) => (writeJsonScalar rj token).map fun event => ([event], rest)

def parseKey (rest : Str) : Option (Str × Str) :=
  let rest := skipWs rest
  if TOOL_ARGS_STRING_INDICATOR.isPrefixOf rest then delimited rest
  else if rest.head? = some quote then
    match quotedToken rest with
    | none => none
    | some (token, rest) =>
      match rj.document (cStr token) with
      | some (.str key) => some (key, rest)
      | _ => none
  else
    let key := trim (rest.takeWhile (· ≠ char ':'))
    let rest := rest.dropWhile (· ≠ char ':')
    if rest.isEmpty then none
    else if key.isEmpty then none
    else some (key, rest)

def endsBareScalar (c : Byte) : Bool :=
  c == char ',' || c == closeBrace || c == closeBracket || c == closeParen

def parseBareScalar (rest : Str) : Option (List Json.Event × Str) :=
  let token := trim (rest.takeWhile fun c => !endsBareScalar c)
  if token.isEmpty then none
  else (writeJsonScalar rj token).map fun event =>
    ([event], rest.dropWhile fun c => !endsBareScalar c)

/-- A key and its colon. -/
def parseKeyColon (rest : Str) : Option (Str × Str) :=
  match parseKey rj rest with
  | none => none
  | some (key, rest) =>
    match skipWs rest with
    | c :: rest => if c = char ':' then some (key, rest) else none
    | [] => none

mutual

/-- `fuel` bounds the nesting and the number of members; every call consumes input. -/
def parseValue (fuel : Nat) (rest : Str) : Option (List Json.Event × Str) :=
  match fuel with
  | 0 => none
  | fuel + 1 =>
    match skipWs rest with
    | [] => none
    | c :: cs =>
      if TOOL_ARGS_STRING_INDICATOR.isPrefixOf (c :: cs) then parseDelimitedString rj (c :: cs)
      else if c = quote then parseJsonString rj (c :: cs)
      else if c = openBrace then
        match skipWs cs with
        | [] => none
        | d :: ds =>
          if d = closeBrace then some ([.startObject, .endObject], ds)
          else (parseMembers fuel (d :: ds)).map fun (events, rest) => (.startObject :: events, rest)
      else if c = openBracket then
        match skipWs cs with
        | [] => none
        | d :: ds =>
          if d = closeBracket then some ([.startArray, .endArray], ds)
          else (parseItems fuel (d :: ds)).map fun (events, rest) => (.startArray :: events, rest)
      else parseBareScalar rj (c :: cs)

/-- The loop of `parseObject`. -/
def parseMembers (fuel : Nat) (rest : Str) : Option (List Json.Event × Str) :=
  match fuel with
  | 0 => none
  | fuel + 1 =>
    match parseKeyColon rj rest with
    | none => none
    | some (key, rest) =>
      match parseValue fuel rest with
      | none => none
      | some (events, rest) =>
        match skipWs rest with
        | [] => none
        | c :: rest =>
          if c = char ',' then
            (parseMembers fuel (skipWs rest)).map fun (more, rest) =>
              (.key key :: events ++ more, rest)
          else if c = closeBrace then some (.key key :: events ++ [.endObject], rest)
          else none

/-- The loop of `parseArray`. -/
def parseItems (fuel : Nat) (rest : Str) : Option (List Json.Event × Str) :=
  match fuel with
  | 0 => none
  | fuel + 1 =>
    match parseValue fuel rest with
    | none => none
    | some (events, rest) =>
      match skipWs rest with
      | [] => none
      | c :: rest =>
        if c = char ',' then
          (parseItems fuel (skipWs rest)).map fun (more, rest) => (events ++ more, rest)
        else if c = closeBracket then some (events ++ [.endArray], rest)
        else none

end

/-- The loop of `parseArgumentsBody`. -/
def parseArguments (fuel : Nat) (rest : Str) : Option (List Json.Event) :=
  match fuel with
  | 0 => none
  | fuel + 1 =>
    match parseKeyColon rj rest with
    | none => none
    | some (key, rest) =>
      match parseValue rj fuel rest with
      | none => none
      | some (events, rest) =>
        match skipWs rest with
        | [] => some (.key key :: events ++ [.endObject])
        | c :: rest =>
          if c = char ',' then
            let rest := skipWs rest
            if rest.isEmpty then none
            else (parseArguments fuel rest).map fun more => .key key :: events ++ more
          else none

def parseArgumentsBody (input : Str) : Option (List Json.Event) :=
  let rest := skipWs input
  if rest.isEmpty then some [.startObject, .endObject]
  else (parseArguments rj (2 * input.length + 2) rest).map (.startObject :: ·)

def parseNativeArgumentsBody (body : Str) : Option Str :=
  (parseArgumentsBody rj body).map rj.write

end NativeValueParser

end ModelServer.Gemma4ToolParser
