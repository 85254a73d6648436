import Mathlib.Algebra.Group.Nat.Defs
import ModelServer.RapidJson
import ModelServer.StructuredText

namespace ModelServer

section ArgumentsOfAnyType

/-- A number that RapidJSON has as an unsigned integer only. -/
def exceedsInt64 (token : Str) : Bool :=
  token.all isdigit && 2 ^ 63 ≤ token.foldl (fun n c => 10 * n + (c.toNat - 48)) 0

mutual

/-- The calls of `writeArgumentOfAnyType`. -/
def argumentEvents : Json → List Json.Event
  | .null => [.str []]
  | .bool b => [.bool b]
  | .num token => if exceedsInt64 token then [.str []] else [.raw token]
  | .str s => [.str (cStr s)]
  | .arr items => .startArray :: (argumentItems items ++ [.endArray])
  | .obj members => .startObject :: (argumentMembers members ++ [.endObject])

def argumentItems : List Json → List Json.Event
  | [] => []
  | v :: vs => argumentEvents v ++ argumentItems vs

def argumentMembers : List (Str × Json) → List Json.Event
  | [] => []
  | (k, v) :: ms => .key (cStr k) :: (argumentEvents v ++ argumentMembers ms)

end

end ArgumentsOfAnyType

namespace Lfm2ToolParser

def TOOL_LIST_START_INDICATOR : Str := bytes "["
def TOOL_LIST_END_INDICATOR : Str := bytes "]"
def TOOL_ARGS_START_INDICATOR : Str := bytes "("
def TOOL_ARGS_END_INDICATOR : Str := bytes ")"
def TOOL_SEPARATOR_STR : Str := bytes ", "
def EOS_TOKEN_STR : Str := bytes "<|im_end|>"

structure Argument where
  name : Str
  value : Str
deriving DecidableEq

/-- The single quotes between the first and the last character; one that closes stands at the end or before one of
these characters. -/
def replaceQuotes (followers : List Byte) : Bool → Str → Str
  | _, [] => []
  | quoteDepth, c :: rest =>
    if c ≠ char '\'' then c :: replaceQuotes followers quoteDepth rest
    else if !quoteDepth then char '"' :: replaceQuotes followers true rest
    else if rest.isEmpty || rest.head?.any (followers.contains ·) then char '"' :: replaceQuotes followers false rest
    else c :: replaceQuotes followers quoteDepth rest

def replaceInnerQuotes (followers : List Byte) : Str → Str
  | [] => []
  | first :: rest => first :: (replaceQuotes followers false rest.dropLast ++ rest.getLast?.toList)

def parseArrayParameter (argumentStr : Str) : Str := replaceInnerQuotes [char ','] argumentStr

def parseObjectParameter (argumentStr : Str) : Str := replaceInnerQuotes [char ',', char ':'] argumentStr

def tolower (c : Byte) : Byte := if 65 ≤ c && c ≤ 90 then c + 32 else c

/-- `front` and `back` of a blank argument, which are no characters. -/
def ends (normalized : Str) : Byte × Byte := (normalized.head?.getD 0, normalized.getLast?.getD 0)

/-- The quotes of an argument, made those of JSON. -/
def normalizeQuotes (normalized : Str) : Str :=
  let (first, last) := ends normalized
  let normalized := if first == char '\x7b' && last == char '\x7d' then parseObjectParameter normalized else normalized
  let normalized := if first == char '[' && last == char ']' then parseArrayParameter normalized else normalized
  if first == char '\'' && last == char '\'' then (normalized.set 0 (char '"')).set (normalized.length - 1) (char '"')
  else normalized

def normalizeArgStr (rj : RapidJson) (arg : Str) : Str :=
  if arg.isEmpty then arg
  else
    let trimmed := trim arg
    let lower := trimmed.map tolower
    if lower = bytes "true" ∨ lower = bytes "false" ∨ lower = bytes "null" then lower
    else
      let (first, last) := ends trimmed
      let normalized := normalizeQuotes trimmed
      let finalValue := match rj.document (cStr normalized) with
        | some value => value
        | none => .str (if first == char '"' && last == char '"' then substr normalized 1 (normalized.length - 2) else normalized)
      cStr (rj.write finalValue.events)

def writeArgumentToWriter (rj : RapidJson) (arg : Str) : List Json.Event :=
  argumentEvents ((rj.document (cStr (normalizeArgStr rj arg))).getD .null)

def parseSingleArgument (argumentStr : Str) : Argument :=
  match Occurrence.indexOf? (bytes "=") argumentStr with
  | some equalPos => ⟨argumentStr.take equalPos, argumentStr.drop (equalPos + 1)⟩
  | none => ⟨argumentStr, []⟩

/-- Each separator moves the position, so the length of the text is budget enough. -/
def parseArgumentsFrom (argumentsStr : Str) : Nat → Nat → List Argument
  | 0, _ => []
  | budget + 1, argPos =>
    if argPos < argumentsStr.length then
      match findInStringRespectingSpecialChars argumentsStr TOOL_SEPARATOR_STR argPos with
      | none => [parseSingleArgument (argumentsStr.drop argPos)]
      | some commaPos =>
        parseSingleArgument (substr argumentsStr argPos (commaPos - argPos)) ::
          parseArgumentsFrom argumentsStr budget (commaPos + TOOL_SEPARATOR_STR.length)
    else []

def parseArguments (argumentsStr : Str) : List Argument := parseArgumentsFrom argumentsStr argumentsStr.length 0

/-- The text of the arguments object. -/
def writeArguments (rj : RapidJson) (arguments : List Argument) : Str :=
  cStr (rj.write (.startObject :: (arguments.flatMap fun argument =>
    .key (cStr argument.name) :: writeArgumentToWriter rj argument.value) ++ [.endObject]))

end Lfm2ToolParser

end ModelServer
