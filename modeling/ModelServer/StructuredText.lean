import ModelServer.ByteStrings

/-! Searching text whose brackets, braces and quotes nest. -/

namespace ModelServer

/-- The counters of `findInStringRespectingSpecialChars`. -/
structure SpecialChars where
  bracketDepth : Int := 0
  braceDepth : Int := 0
  insideQuote : Bool := false
  insideSingleQuote : Bool := false
deriving DecidableEq

def isWordChar (c : Byte) : Bool := isalnum c || c == char '_'

namespace SpecialChars

/-- Outside every container and quote. -/
def outside (d : SpecialChars) : Bool :=
  d.bracketDepth == 0 && d.braceDepth == 0 && !d.insideQuote && !d.insideSingleQuote

/-- A single quote opens behind a boundary; it closes unless it stands within a word
or a word comes next. -/
def apostrophe (d : SpecialChars) (prev : Option Byte) (rest : Str) : SpecialChars :=
  let prevIsWord := prev.any isWordChar
  if !d.insideSingleQuote then { d with insideSingleQuote := !prevIsWord }
  else if prevIsWord && rest.head?.any isWordChar then d
  else if (rest.dropWhile isspace).head?.any isWordChar then d
  else { d with insideSingleQuote := false }

/-- The counters after the byte `c`, between the byte before it and the text behind it. -/
def step (d : SpecialChars) (prev : Option Byte) (c : Byte) (rest : Str) : SpecialChars :=
  let insideAnyQuote := d.insideQuote || d.insideSingleQuote
  let escaped := prev == some (char '\\')
  if !insideAnyQuote && c == char '\x7b' then { d with braceDepth := d.braceDepth + 1 }
  else if !insideAnyQuote && c == char '\x7d' then { d with braceDepth := d.braceDepth - 1 }
  else if !insideAnyQuote && c == char '[' then { d with bracketDepth := d.bracketDepth + 1 }
  else if !insideAnyQuote && c == char ']' then { d with bracketDepth := d.bracketDepth - 1 }
  else if !d.insideSingleQuote && c == char '"' && !escaped then
    { d with insideQuote := !d.insideQuote }
  else if !d.insideQuote && c == char '\'' && !escaped then d.apostrophe prev rest
  else d

/-- The offset of the first target that stands outside. -/
def scan (target : Str) : SpecialChars → Option Byte → Str → Option Nat
  | _, _, [] => none
  | d, prev, c :: rest =>
    if d.outside && target.isPrefixOf (c :: rest) then some 0
    else (scan target (d.step prev c rest) (some c) rest).map (· + 1)

end SpecialChars

def findInStringRespectingSpecialChars (str target : Str) (startPos : Nat) : Option Nat :=
  let prev := if startPos = 0 then none else str[startPos - 1]?
  (SpecialChars.scan target {} prev (str.drop startPos)).map (startPos + ·)

def isWrappedByDelimiter (value delimiter : Str) : Bool :=
  decide (2 * delimiter.length ≤ value.length) && delimiter.isPrefixOf value &&
    value.drop (value.length - delimiter.length) == delimiter

/-- A structural byte within a delimited value. -/
def maskByte (c : Byte) : Byte :=
  if c == char '"' || c == char '\'' || c == char '\x7b' || c == char '\x7d' || c == char '[' ||
      c == char ']' then 1
  else c

/-- The values between two delimiters, masked; one that is not closed yet is masked to the end. -/
def maskFrom (delimiter : Str) : Nat → Str → Str
  | 0, text => text
  | budget + 1, text =>
    match Occurrence.indexOf? delimiter text with
    | none => text
    | some openPos =>
      let valueStart := openPos + delimiter.length
      let value := text.drop valueStart
      match Occurrence.indexOf? delimiter value with
      | none => text.take valueStart ++ value.map maskByte
      | some len =>
        text.take valueStart ++ ((value.take len).map maskByte ++
          (delimiter ++ maskFrom delimiter budget (value.drop (len + delimiter.length))))

/-- Every round reads a delimiter, so the length is budget enough. -/
def maskDelimitedStringValues (text delimiter : Str) : Str := maskFrom delimiter text.length text

theorem scan_lt {target : Str} {d : SpecialChars} {prev : Option Byte} {text : Str} {k : Nat}
    (h : SpecialChars.scan target d prev text = some k) : k < text.length := by
  induction text generalizing d prev k with
  | nil => cases h
  | cons c rest ih =>
    rw [SpecialChars.scan] at h
    split at h
    · cases h
      exact Nat.succ_pos _
    · obtain ⟨j, hj, rfl⟩ := Option.map_eq_some_iff.mp h
      exact Nat.succ_lt_succ (ih hj)

theorem findInString_bounds {str target : Str} {startPos pos : Nat}
    (h : findInStringRespectingSpecialChars str target startPos = some pos) :
    startPos ≤ pos ∧ pos < str.length := by
  obtain ⟨k, hk, rfl⟩ := Option.map_eq_some_iff.mp h
  have hlt := scan_lt hk
  rw [List.length_drop] at hlt
  omega

theorem length_maskFrom {delimiter : Str} (hd : delimiter ≠ []) (budget : Nat) (text : Str) :
    (maskFrom delimiter budget text).length = text.length := by
  induction budget generalizing text with
  | zero => rfl
  | succ budget ih =>
    rw [maskFrom]
    split
    · rfl
    next openPos ho =>
      have hopen := ((Occurrence.indexOf?_eq_some_iff hd).mp ho).1.length_le hd
      dsimp only
      split
      · simp only [List.length_append, List.length_map, List.length_take, List.length_drop]
        omega
      next len hl =>
        have hbound := ((Occurrence.indexOf?_eq_some_iff hd).mp hl).1.length_le hd
        simp only [List.length_append, List.length_map, List.length_take, List.length_drop, ih]
          at hbound ⊢
        omega

theorem length_maskDelimitedStringValues {delimiter : Str} (hd : delimiter ≠ []) (text : Str) :
    (maskDelimitedStringValues text delimiter).length = text.length :=
  length_maskFrom hd text.length text

/-- The parts of `content` between the separators that `lookup` shows, from `pos` on. -/
def splitFrom (content lookup separator : Str) : Nat → Nat → List Str
  | 0, pos => [content.drop pos]
  | budget + 1, pos =>
    match findInStringRespectingSpecialChars lookup separator pos with
    | none => [content.drop pos]
    | some separatorPos =>
      substr content pos (separatorPos - pos) ::
        splitFrom content lookup separator budget (separatorPos + separator.length)

def splitRespectingSpecialChars (content separator : Str) (maskedContent : Option Str := none) :
    List Str :=
  splitFrom content (maskedContent.getD content) separator content.length 0

end ModelServer
