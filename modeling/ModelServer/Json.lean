import Mathlib.Data.List.Basic
import Mathlib.Tactic.Common

/-- JSON values over bytes. A number is kept as its spelling. -/
inductive Json
  | null
  | bool (b : Bool)
  | num (token : List UInt8)
  | str (s : List UInt8)
  | arr (items : List Json)
  | obj (members : List (List UInt8 × Json))

namespace Json

/-- The calls a SAX writer receives; `raw` hands over a finished text. -/
inductive Event
  | startObject
  | key (k : List UInt8)
  | endObject
  | startArray
  | endArray
  | null
  | bool (b : Bool)
  | str (s : List UInt8)
  | raw (text : List UInt8)
deriving DecidableEq

mutual

/-- The calls by which a value is written. -/
def events : Json → List Event
  | null => [.null]
  | bool b => [.bool b]
  | num token => [.raw token]
  | str s => [.str s]
  | arr items => .startArray :: (itemEvents items ++ [.endArray])
  | obj members => .startObject :: (memberEvents members ++ [.endObject])

def itemEvents : List Json → List Event
  | [] => []
  | v :: vs => events v ++ itemEvents vs

def memberEvents : List (List UInt8 × Json) → List Event
  | [] => []
  | (k, v) :: ms => .key k :: (events v ++ memberEvents ms)

end

def isNumber : Json → Bool
  | num _ => true
  | _ => false

def isBool : Json → Bool
  | bool _ => true
  | _ => false

def isArray : Json → Bool
  | arr _ => true
  | _ => false

def isObject : Json → Bool
  | obj _ => true
  | _ => false

def isString : Json → Bool
  | str _ => true
  | _ => false

/-- `FindMember`: the first member of that name. -/
def member? (k : List UInt8) : Json → Option Json
  | obj members => (members.find? (·.1 == k)).map (·.2)
  | _ => none

end Json
