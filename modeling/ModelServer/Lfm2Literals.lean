import Mathlib.Algebra.Group.Int.Defs
import ModelServer.JsonIntegers
import ModelServer.Lfm2Chunks

namespace ModelServer.Lfm2ToolParser

section Literals

/-- No quote, no backslash and no control character. -/
def isPlain (c : Byte) : Bool := 32 ≤ c && c != char '\'' && c != char '"' && c != char '\\'

structure PlainText where
  text : Str
  plain : ∀ c ∈ text, isPlain c = true

/-- The values that a call is written with, each string in single quotes. -/
inductive Literal
  | none
  | bool (b : Bool)
  | int (n : Int)
  | str (s : PlainText)
  | list (items : List Literal)
  | dict (members : List (PlainText × Literal))

mutual

def Literal.python : Literal → PythonLiteral
  | .none => .none
  | .bool b => .bool b
  | .int n => .number (n < 0) (Json.decimals n.natAbs) .none
  | .str s => .str (char '\'') s.text
  | .list items => .list (pythonItems items)
  | .dict members => .dict (pythonMembers members)

def pythonItems : List Literal → List PythonLiteral
  | [] => []
  | v :: vs => v.python :: pythonItems vs

def pythonMembers : List (PlainText × Literal) → List (PythonLiteral × PythonLiteral)
  | [] => []
  | (k, v) :: ms => (.str (char '\'') k.text, v.python) :: pythonMembers ms

end

def Literal.text (value : Literal) : Str := value.python.text

mutual

/-- The JSON value that corresponds. -/
def Literal.json : Literal → Json
  | .none => .null
  | .bool b => .bool b
  | .int n => .num (Json.integerText n)
  | .str s => .str s.text
  | .list items => .arr (jsonItems items)
  | .dict members => .obj (jsonMembers members)

def jsonItems : List Literal → List Json
  | [] => []
  | v :: vs => v.json :: jsonItems vs

def jsonMembers : List (PlainText × Literal) → List (Str × Json)
  | [] => []
  | (k, v) :: ms => (k.text, v.json) :: jsonMembers ms

end

end Literals

section Conditions

mutual

/-- No `None`, `True` or `False` is part of the value. -/
def Literal.constantFree : Literal → Bool
  | .none => false
  | .bool _ => false
  | .int _ => true
  | .str _ => true
  | .list items => constantFreeItems items
  | .dict members => constantFreeMembers members

def constantFreeItems : List Literal → Bool
  | [] => true
  | v :: vs => v.constantFree && constantFreeItems vs

def constantFreeMembers : List (PlainText × Literal) → Bool
  | [] => true
  | (_, v) :: ms => v.constantFree && constantFreeMembers ms

end

mutual

def Literal.integers : Literal → List Int
  | .int n => [n]
  | .list items => integersOfItems items
  | .dict members => integersOfMembers members
  | _ => []

def integersOfItems : List Literal → List Int
  | [] => []
  | v :: vs => v.integers ++ integersOfItems vs

def integersOfMembers : List (PlainText × Literal) → List Int
  | [] => []
  | (_, v) :: ms => v.integers ++ integersOfMembers ms

end

def InInt64 (n : Int) : Prop := -2 ^ 63 ≤ n ∧ n < 2 ^ 63

instance (n : Int) : Decidable (InInt64 n) := inferInstanceAs (Decidable (_ ∧ _))

mutual

/-- Each string of the value stands before one of these characters, or at the end; `next` is what stands behind the value. -/
def Literal.closes (followers : List Byte) (next : Option Byte) : Literal → Bool
  | .str _ => next.all (followers.contains ·)
  | .list items => closesItems followers (some (char ']')) items
  | .dict members => closesMembers followers (some (char '\x7d')) members
  | _ => true

def closesItems (followers : List Byte) (last : Option Byte) : List Literal → Bool
  | [] => true
  | v :: vs => v.closes followers (if vs.isEmpty then last else some (char ',')) && closesItems followers last vs

def closesMembers (followers : List Byte) (last : Option Byte) : List (PlainText × Literal) → Bool
  | [] => true
  | (_, v) :: ms => followers.contains (char ':') && v.closes followers (if ms.isEmpty then last else some (char ',')) &&
      closesMembers followers last ms

end

/-- The arguments that keep their value: no `None`; in a list or a dict no constant at all, and behind each string a comma,
in a dict also a colon, unless it is the last of all; and no integer beyond 64 bits. -/
def Literal.Faithful (value : Literal) : Prop :=
  (∀ n ∈ value.integers, InInt64 n) ∧
    match value with
    | .none => False
    | .list items => closesItems [char ','] .none items = true ∧ constantFreeItems items = true
    | .dict members => closesMembers [char ',', char ':'] .none members = true ∧ constantFreeMembers members = true
    | _ => True

end Conditions

end ModelServer.Lfm2ToolParser
