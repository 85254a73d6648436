import ModelServer.RapidJson

namespace ModelServer

section Delta

mutual

/-- What a value has more than before: new members, new items, or a longer string. -/
def valueDelta (previous : Json) : Json → Option Json
  | .obj current =>
    match previous with
    | .obj previous =>
      let nestedDelta := computeDeltaImpl previous current
      if nestedDelta.isEmpty then none else some (.obj nestedDelta)
    | _ => none
  | .arr currArray =>
    match previous with
    | .arr prevArray => if currArray.length > prevArray.length then some (.arr (currArray.drop prevArray.length)) else none
    | _ => none
  | .str current =>
    match previous with
    | .str previous =>
      let prevStr := cStr previous
      let currStr := cStr current
      if previous ≠ current ∧ currStr.length > prevStr.length then some (.str (currStr.drop prevStr.length)) else none
    | _ => none
  | _ => none

def computeDeltaImpl (previous : List (Str × Json)) : List (Str × Json) → List (Str × Json)
  | [] => []
  | (name, value) :: current =>
    let delta := match (Json.obj previous).member? name with
      | none => some value
      | some .null => some value
      | some before => valueDelta before value
    (delta.toList.map (name, ·)) ++ computeDeltaImpl previous current

end

/-- `GetObject` of both documents. -/
def computeDelta (previous current : Json) : List (Str × Json) :=
  match previous, current with
  | .obj previous, .obj current => computeDeltaImpl previous current
  | _, _ => []

end Delta

inductive IteratorState
  | begin
  | awaitingKey
  | processingKey
  | awaitingColon
  | awaitingValue
  | processingNumber
  | processingKeyword
  | processingString
  | processingObject
  | processingArray
  | awaitingArrayElement
  | ended
deriving DecidableEq

structure LastSeparatorInfo where
  position : Nat
  state : IteratorState
deriving DecidableEq

/-- The top of the stack comes first. -/
structure PartialJsonBuilder where
  buffer : Str := []
  currentPosition : Nat := 0
  state : IteratorState := .begin
  lastSeparator : LastSeparatorInfo := ⟨0, .begin⟩
  openCloseStack : List (Byte × Nat) := []
deriving DecidableEq

namespace PartialJsonBuilder

section Iterator

/-- The consecutive backslashes at the end of a text. -/
def backslashCount (text : Str) : Nat := (text.reverse.takeWhile (· == char '\\')).length

/-- The characters that may come in a state. -/
def expects (state : IteratorState) (c : Byte) : Bool :=
  match state with
  | .begin => c == char '\x7b' || c == char '['
  | .awaitingKey => c == char '"' || c == char '\x7d'
  | .awaitingColon => c == char ':'
  | .awaitingValue => c == char '\x7b' || c == char '[' || c == char '"' || isdigit c || c == char 't' || c == char 'f' || c == char 'n'
  | _ => true

/-- A value starts as a keyword or a number until more is known. -/
def startValue (state : IteratorState) (c : Byte) : IteratorState :=
  match state with
  | .awaitingValue | .awaitingArrayElement | .processingArray =>
    if c == char 't' || c == char 'f' || c == char 'n' then .processingKeyword else .processingNumber
  | _ => state

/-- The state within what is open. -/
def enclosing (openCloseStack : List (Byte × Nat)) (otherwise : IteratorState) : IteratorState :=
  match openCloseStack with
  | (bracket, _) :: _ =>
    if bracket == char '\x7b' then .processingObject else if bracket == char '[' then .processingArray else otherwise
  | [] => otherwise

/-- A closing bracket, if it closes what is open. -/
def closeBracket (b : PartialJsonBuilder) (opening : Byte) : PartialJsonBuilder :=
  match b.openCloseStack with
  | (bracket, _) :: rest =>
    if bracket == opening then
      { b with openCloseStack := rest, state := if rest.isEmpty then .ended else enclosing rest b.state }
    else b
  | [] => b

/-- A character outside of strings and keys. -/
def structural (b : PartialJsonBuilder) (c : Byte) : PartialJsonBuilder :=
  let b := { b with state := startValue b.state c }
  if c == char '\x7b' then { b with openCloseStack := (c, b.currentPosition) :: b.openCloseStack, state := .awaitingKey }
  else if c == char '[' then { b with openCloseStack := (c, b.currentPosition) :: b.openCloseStack, state := .processingArray }
  else if c == char '\x7d' then b.closeBracket (char '\x7b')
  else if c == char ']' then b.closeBracket (char '[')
  else if c == char ':' then { b with state := .awaitingValue }
  else if c == char ',' then
    { b with
      lastSeparator := ⟨b.currentPosition, b.state⟩
      state := match b.openCloseStack with
        | (bracket, _) :: _ =>
          if bracket == char '\x7b' then .awaitingKey else if bracket == char '[' then .awaitingArrayElement else b.state
        | [] => b.state }
  else if c == char '"' then
    if b.state = .awaitingKey then { b with state := .processingKey }
    else { b with state := .processingString, openCloseStack := (c, b.currentPosition) :: b.openCloseStack }
  else b

/-- The end of a string or a key. -/
def closeQuote (b : PartialJsonBuilder) : PartialJsonBuilder :=
  if b.state = .processingKey then { b with state := .awaitingColon }
  else { b with openCloseStack := b.openCloseStack.tail, state := enclosing b.openCloseStack.tail b.state }

/-- A character of a string or a key, and whether it escapes the next one. -/
def quoted (b : PartialJsonBuilder) (c : Byte) : PartialJsonBuilder × Bool :=
  let before := b.buffer.take b.currentPosition
  if c == char '"' then if backslashCount before % 2 = 1 then (b, false) else (b.closeQuote, false)
  else if c == char '\\' then (b, decide ((backslashCount before + 1) % 2 ≠ 0))
  else (b, false)

/-- One character; there is no result where the code throws. -/
def iterate (b : PartialJsonBuilder) (c : Byte) : Option (PartialJsonBuilder × Bool) :=
  if b.state ≠ .processingString ∧ b.state ≠ .processingKey then
    if isspace c then some (b, false)
    else if expects b.state c then some (b.structural c, false)
    else none
  else some (b.quoted c)

def advance (b : PartialJsonBuilder) : PartialJsonBuilder := { b with currentPosition := b.currentPosition + 1 }

/-- The characters that are left, up to the end of the document. -/
def iterateAll (b : PartialJsonBuilder) (finishedWithEscapeCharacter : Bool) : Str → Option (PartialJsonBuilder × Bool)
  | [] => some (b, finishedWithEscapeCharacter)
  | c :: rest =>
    if b.state = .ended then some (b, finishedWithEscapeCharacter)
    else (b.iterate c).bind fun (b, finishedWithEscapeCharacter) => iterateAll b.advance finishedWithEscapeCharacter rest

end Iterator

section Closing

/-- What is left of the stack before a position. -/
def openBefore (openCloseStack : List (Byte × Nat)) (position : Nat) : List (Byte × Nat) :=
  openCloseStack.dropWhile fun (_, openPosition) => position ≤ openPosition

def closings (openCloseStack : List (Byte × Nat)) : Str :=
  openCloseStack.filterMap fun (bracket, _) =>
    if bracket == char '\x7b' then some (char '\x7d') else if bracket == char '[' then some (char ']')
    else if bracket == char '"' then some (char '"') else none

/-- The buffer before its brackets are closed; keys and keywords that have begun are taken back to the last separator. -/
def cutInput (b : PartialJsonBuilder) (finishedWithEscapeCharacter : Bool) : Str × PartialJsonBuilder :=
  match b.state with
  | .awaitingValue => (b.buffer ++ bytes "null", b)
  | .awaitingKey | .processingKey | .awaitingColon | .awaitingArrayElement | .processingKeyword =>
    if b.lastSeparator.position < b.buffer.length then
      (b.buffer.take b.lastSeparator.position,
        { b with
          openCloseStack := openBefore b.openCloseStack b.lastSeparator.position
          currentPosition := b.lastSeparator.position
          state := b.lastSeparator.state })
    else (b.buffer, b)
  | .processingString => (if finishedWithEscapeCharacter then b.buffer.dropLast else b.buffer, b)
  | .processingNumber => (if b.buffer.getLast? = some (char '.') then b.buffer.dropLast else b.buffer, b)
  | _ => (b.buffer, b)

/-- The document that is there, with what is open closed; none where the code throws. -/
def document (rj : RapidJson) (b : PartialJsonBuilder) (finishedWithEscapeCharacter : Bool) : Option (Json × PartialJsonBuilder) :=
  if b.state = .ended ∧ b.openCloseStack.isEmpty then
    (rj.document (cStr (if b.currentPosition = b.buffer.length then b.buffer else b.buffer.take b.currentPosition))).map (·, b)
  else if b.state = .begin then some (.obj [], b)
  else
    let (closedInput, b) := b.cutInput finishedWithEscapeCharacter
    let closedInput := closedInput ++ closings b.openCloseStack
    if closedInput.isEmpty then some (.obj [], b) else (rj.document (cStr closedInput)).map (·, b)

def add (rj : RapidJson) (b : PartialJsonBuilder) (chunk : Str) : Option (Json × PartialJsonBuilder) :=
  let b := { b with buffer := b.buffer ++ chunk }
  (b.iterateAll false (b.buffer.drop b.currentPosition)).bind fun (b, finishedWithEscapeCharacter) => b.document rj finishedWithEscapeCharacter

def isComplete (b : PartialJsonBuilder) : Bool := b.state = .ended

def getUnprocessedBuffer (b : PartialJsonBuilder) : Str := b.buffer.drop b.currentPosition

end Closing

end PartialJsonBuilder

end ModelServer
