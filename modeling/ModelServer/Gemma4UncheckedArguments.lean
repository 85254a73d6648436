import Mathlib.Algebra.Group.Nat.Defs
import ModelServer.Gemma4NativeText
import ModelServer.StructuredText

/-! The arguments of a call where no tool registry is enforced: whatever does not
read as JSON becomes a string. -/

namespace ModelServer.Gemma4ToolParser

def TOOL_ARGS_END_INDICATOR : Str := bytes "\x7d"
def TOOL_ARGS_SEPARATOR_STR : Str := bytes ","

namespace Unchecked

def tolower (c : Byte) : Byte := if 65 ≤ c && c ≤ 90 then c + 32 else c

section Normalize

variable (rj : RapidJson)

/-- The elements of a text whose delimited strings are masked. -/
def elements (body : Str) : List Str :=
  splitRespectingSpecialChars body TOOL_ARGS_SEPARATOR_STR
    (some (maskDelimitedStringValues body TOOL_ARGS_STRING_INDICATOR))

/-- The text between the first and the last byte, without blanks around it. -/
def innerText (argumentStr : Str) : Str := trim (substr argumentStr 1 (argumentStr.length - 2))

def joinWith (separator : Str) : List Str → Str
  | [] => []
  | [part] => part
  | part :: parts => part ++ (separator ++ joinWith separator parts)

def parseArrayParameter (normalizeArgStr : Str → Str) (argumentStr : Str) : Str :=
  let body := innerText argumentStr
  if body.isEmpty then bytes "[]"
  else bytes "[" ++ (joinWith (bytes ",") ((elements body).map normalizeArgStr) ++ bytes "]")

/-- A member as JSON; `none` where it has no key separator. -/
def parseMember (normalizeArgStr : Str → Str) (member : Str) : Option Str :=
  let maskedMember := maskDelimitedStringValues member TOOL_ARGS_STRING_INDICATOR
  (findInStringRespectingSpecialChars maskedMember (bytes ":") 0).map fun keyEndPos =>
    let key := trim (member.take keyEndPos)
    let key :=
      if isWrappedByDelimiter key TOOL_ARGS_STRING_INDICATOR then
        substr key TOOL_ARGS_STRING_INDICATOR.length (key.length - 2 * TOOL_ARGS_STRING_INDICATOR.length)
      else key
    rj.escapeAsJsonString key ++ (bytes ":" ++ normalizeArgStr (member.drop (keyEndPos + 1)))

/-- A member without a key leaves the argument unchanged. -/
def parseObjectParameter (normalizeArgStr : Str → Str) (argumentStr : Str) : Str :=
  let body := innerText argumentStr
  if body.isEmpty then bytes "\x7b\x7d"
  else
    match (elements body).mapM (parseMember rj normalizeArgStr) with
    | some members => bytes "\x7b" ++ (joinWith (bytes ",") members ++ bytes "\x7d")
    | none => argumentStr

/-- JSON is built out of the Gemma4 syntax before the text is parsed. -/
def normalizeArgStrWithin : Nat → Str → Str
  | 0, arg => arg
  | budget + 1, arg =>
    let normalized := trim arg
    let lower := normalized.map tolower
    if normalized.isEmpty then bytes "\"\""
    else if lower = bytes "true" ∨ lower = bytes "false" ∨ lower = bytes "null" then lower
    else
      let normalized :=
        if isWrappedByDelimiter normalized TOOL_ARGS_STRING_INDICATOR then
          rj.escapeAsJsonString (substr normalized TOOL_ARGS_STRING_INDICATOR.length
            (normalized.length - 2 * TOOL_ARGS_STRING_INDICATOR.length))
        else if normalized.head? = some openBrace ∧ normalized.getLast? = some closeBrace then
          parseObjectParameter rj (normalizeArgStrWithin budget) normalized
        else if normalized.head? = some openBracket ∧ normalized.getLast? = some closeBracket then
          parseArrayParameter (normalizeArgStrWithin budget) normalized
        else normalized
      if (rj.document (cStr normalized)).isSome then normalized
      else rj.escapeAsJsonString normalized

/-- An element is shorter than what it is an element of, so the length is budget enough. -/
def normalizeArgStr (arg : Str) : Str := normalizeArgStrWithin rj (arg.length + 1) arg

end Normalize

section Write

/-- A spelling of `uint64_t` that no `int64_t` has; such a number is neither `IsInt64` nor `IsDouble`. -/
def beyondInt64 (token : Str) : Bool :=
  token.all isdigit &&
    decide (2 ^ 63 ≤ token.foldl (fun value digit => 10 * value + (digit.toNat - 48)) 0)

mutual

/-- The calls of `writeArgumentOfAnyType`. -/
def writeArgumentOfAnyType : Json → List Json.Event
  | .str s => [.str (cStr s)]
  | .num token => if beyondInt64 token then [.str []] else [.raw token]
  | .bool b => [.bool b]
  | .arr items => .startArray :: (writeItems items ++ [.endArray])
  | .obj members => .startObject :: (writeMembers members ++ [.endObject])
  | .null => [.str []]

def writeItems : List Json → List Json.Event
  | [] => []
  | v :: vs => writeArgumentOfAnyType v ++ writeItems vs

def writeMembers : List (Str × Json) → List Json.Event
  | [] => []
  | (k, v) :: ms => .key (cStr k) :: (writeArgumentOfAnyType v ++ writeMembers ms)

end

/-- A text that does not parse leaves the document null. -/
def writeArgumentToWriter (rj : RapidJson) (arg : Str) : List Json.Event :=
  writeArgumentOfAnyType ((rj.document (cStr (normalizeArgStr rj arg))).getD .null)

/-- A name and a value; the whole text is the name where there is no colon. -/
def parseSingleArgument (argumentStr : Str) : Str × Str :=
  match find argumentStr (bytes ":") 0 with
  | some colonPos => (trim (argumentStr.take colonPos), argumentStr.drop (colonPos + 1))
  | none => (trim argumentStr, [])

/-- The texts between the commas, from `argPos` on; nothing comes behind a last comma. -/
def argumentsFrom (argumentsStr maskedArgumentsStr : Str) : Nat → Nat → List Str
  | 0, _ => []
  | budget + 1, argPos =>
    if argumentsStr.length ≤ argPos then []
    else
      match findInStringRespectingSpecialChars maskedArgumentsStr TOOL_ARGS_SEPARATOR_STR argPos with
      | none => [argumentsStr.drop argPos]
      | some commaPos =>
        substr argumentsStr argPos (commaPos - argPos) ::
          argumentsFrom argumentsStr maskedArgumentsStr budget
            (commaPos + TOOL_ARGS_SEPARATOR_STR.length)

def parseArguments (argumentsStr : Str) : List (Str × Str) :=
  let masked := maskDelimitedStringValues argumentsStr TOOL_ARGS_STRING_INDICATOR
  (argumentsFrom argumentsStr masked (argumentsStr.length + 1) 0).map parseSingleArgument

/-- The arguments object that is written for the text between the braces. -/
def argumentsText (rj : RapidJson) (argumentsStr : Str) : Str :=
  cStr (rj.write (.startObject ::
    ((parseArguments argumentsStr).flatMap fun (name, value) =>
      .key (cStr name) :: writeArgumentToWriter rj value) ++ [.endObject]))

end Write

end Unchecked

end ModelServer.Gemma4ToolParser
