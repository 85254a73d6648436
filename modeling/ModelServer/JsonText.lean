import ModelServer.RapidJson

namespace Json

/-- A container that is being written. -/
structure Level where
  inArray : Bool
  valueCount : Nat

/-- A writer over a buffer, without indentation. -/
structure Writer where
  text : List UInt8 := []
  levels : List Level := []

section Strings

def hexDigit (n : UInt8) : UInt8 := if n < 10 then 48 + n else 55 + n

def escapeByte (c : UInt8) : List UInt8 :=
  if c = 34 then [92, 34]
  else if c = 92 then [92, 92]
  else if c = 8 then [92, 98]
  else if c = 9 then [92, 116]
  else if c = 10 then [92, 110]
  else if c = 12 then [92, 102]
  else if c = 13 then [92, 114]
  else if c < 32 then [92, 117, 48, 48, hexDigit (c / 16), hexDigit (c % 16)]
  else [c]

def quoted (s : List UInt8) : List UInt8 := 34 :: (s.flatMap escapeByte ++ [34])

theorem hexDigit_ne_zero (n : UInt8) (h : n < 16) : hexDigit n ≠ 0 := by
  unfold hexDigit
  split <;> intro hzero <;> simp only [← UInt8.toNat_inj, UInt8.lt_iff_toNat_lt] at * <;>
    simp at * <;> omega

theorem zero_notMem_escapeByte (c : UInt8) : 0 ∉ escapeByte c := by
  unfold escapeByte
  repeat' split
  all_goals try decide
  next hcontrol =>
    have hhigh : c / 16 < 16 := by
      rw [UInt8.lt_iff_toNat_lt] at *
      simp at *
      omega
    have hlow : c % 16 < 16 := by
      rw [UInt8.lt_iff_toNat_lt]
      simp
      omega
    have h1 := hexDigit_ne_zero _ hhigh
    have h2 := hexDigit_ne_zero _ hlow
    simp [Ne.symm h1, Ne.symm h2]
  next hcontrol =>
    intro hmem
    obtain rfl : 0 = c := by simpa using hmem
    exact hcontrol (by decide)

theorem zero_notMem_quoted (s : List UInt8) : 0 ∉ quoted s := by
  intro hmem
  rcases List.mem_cons.mp hmem with h | h
  · cases h
  · rcases List.mem_append.mp h with h | h
    · obtain ⟨c, _, hc⟩ := List.mem_flatMap.mp h
      exact zero_notMem_escapeByte c hc
    · cases List.mem_singleton.mp h

end Strings

namespace Writer

/-- What stands between a value or key and the one before it. -/
def separator : List Level → List UInt8
  | [] => []
  | level :: _ =>
    if level.valueCount = 0 then []
    else if level.inArray || level.valueCount % 2 = 0 then [44]
    else [58]

def counted : List Level → List Level
  | [] => []
  | level :: levels => { level with valueCount := level.valueCount + 1 } :: levels

/-- One value or key more. -/
def put (w : Writer) (token : List UInt8) : Writer :=
  ⟨w.text ++ (separator w.levels ++ token), counted w.levels⟩

def openLevel (w : Writer) (inArray : Bool) (bracket : UInt8) : Writer :=
  ⟨w.text ++ (separator w.levels ++ [bracket]), ⟨inArray, 0⟩ :: counted w.levels⟩

def closeLevel (w : Writer) (bracket : UInt8) : Writer := ⟨w.text ++ [bracket], w.levels.tail⟩

def step (w : Writer) : Event → Writer
  | .startObject => w.openLevel false 123
  | .endObject => w.closeLevel 125
  | .startArray => w.openLevel true 91
  | .endArray => w.closeLevel 93
  | .key k => w.put (quoted k)
  | .str s => w.put (quoted s)
  | .null => w.put [110, 117, 108, 108]
  | .bool true => w.put [116, 114, 117, 101]
  | .bool false => w.put [102, 97, 108, 115, 101]
  | .raw text => w.put text

def run (w : Writer) (events : List Event) : Writer := events.foldl step w

end Writer

/-- The text of a writer after these calls. -/
def writeEvents (events : List Event) : List UInt8 := (Writer.run {} events).text

section Texts

mutual

/-- The text of a value. -/
def text : Json → List UInt8
  | null => [110, 117, 108, 108]
  | bool true => [116, 114, 117, 101]
  | bool false => [102, 97, 108, 115, 101]
  | num token => token
  | str s => quoted s
  | arr items => 91 :: (itemsText true items ++ [93])
  | obj members => 123 :: (membersText true members ++ [125])

/-- Items with commas; `first` leaves out the comma of the first one. -/
def itemsText (first : Bool) : List Json → List UInt8
  | [] => []
  | v :: vs => (if first then [] else [44]) ++ (text v ++ itemsText false vs)

def membersText (first : Bool) : List (List UInt8 × Json) → List UInt8
  | [] => []
  | (k, v) :: ms => (if first then [] else [44]) ++ (quoted k ++ (58 :: (text v ++ membersText false ms)))

end

end Texts

namespace Writer

theorem run_append (w : Writer) (a b : List Event) : w.run (a ++ b) = (w.run a).run b :=
  List.foldl_append ..

theorem run_cons (w : Writer) (event : Event) (events : List Event) :
    w.run (event :: events) = (w.step event).run events := rfl

mutual

/-- A value is put as its text, wherever it stands. -/
theorem run_events (w : Writer) : ∀ value : Json, w.run value.events = w.put value.text
  | .null => rfl
  | .bool true => rfl
  | .bool false => rfl
  | .num _ => rfl
  | .str _ => rfl
  | .arr items => by
    have hitems := run_itemEvents (w.text ++ (separator w.levels ++ [91])) (counted w.levels) 0 items
    rw [Json.events, run_cons, run_append, step, openLevel, hitems]
    simp [run, step, closeLevel, put, Json.text]
  | .obj members => by
    have hmembers := run_memberEvents (w.text ++ (separator w.levels ++ [123])) (counted w.levels) 0 members
    rw [Json.events, run_cons, run_append, step, openLevel, hmembers]
    simp [run, step, closeLevel, put, Json.text]

theorem run_itemEvents (written : List UInt8) (levels : List Level) (n : Nat) : ∀ items : List Json,
    run ⟨written, ⟨true, n⟩ :: levels⟩ (itemEvents items) =
      ⟨written ++ itemsText (n == 0) items, ⟨true, n + items.length⟩ :: levels⟩
  | [] => by simp [itemEvents, itemsText, run]
  | v :: vs => by
    have hlength : n + 1 + vs.length = n + (v :: vs).length := by
      rw [List.length_cons]
      omega
    rw [itemEvents, run_append, run_events _ v, put, counted, run_itemEvents _ _ (n + 1) vs, hlength]
    cases n with
    | zero => simp [separator, itemsText]
    | succ n => simp [separator, itemsText]

theorem run_memberEvents (written : List UInt8) (levels : List Level) (n : Nat) :
    ∀ members : List (List UInt8 × Json),
    run ⟨written, ⟨false, 2 * n⟩ :: levels⟩ (memberEvents members) =
      ⟨written ++ membersText (n == 0) members, ⟨false, 2 * (n + members.length)⟩ :: levels⟩
  | [] => by simp [memberEvents, membersText, run]
  | (k, v) :: ms => by
    have hcount : 2 * n + 1 + 1 = 2 * (n + 1) := by omega
    have hlength : n + 1 + ms.length = n + ((k, v) :: ms).length := by
      rw [List.length_cons]
      omega
    rw [memberEvents, run_cons, run_append, step, put, counted, run_events _ v, put, counted]
    dsimp only
    rw [hcount, run_memberEvents _ _ (n + 1) ms, hlength]
    cases n with
    | zero => simp [separator, membersText]
    | succ n => simp [separator, membersText]

end

end Writer

theorem writeEvents_events (value : Json) : writeEvents value.events = value.text := by
  rw [writeEvents, Writer.run_events]
  rfl

section Reader

def hexValue (c : UInt8) : Option Nat :=
  if 48 ≤ c && c ≤ 57 then some (c.toNat - 48)
  else if 65 ≤ c && c ≤ 70 then some (c.toNat - 55)
  else if 97 ≤ c && c ≤ 102 then some (c.toNat - 87)
  else none

def codeUnit (a b c d : UInt8) : Option Nat := do
  let a ← hexValue a
  let b ← hexValue b
  let c ← hexValue c
  let d ← hexValue d
  some (((a * 16 + b) * 16 + c) * 16 + d)

def utf8 (code : Nat) : List UInt8 :=
  if code < 0x80 then [code.toUInt8]
  else if code < 0x800 then [(0xC0 + code / 0x40).toUInt8, (0x80 + code % 0x40).toUInt8]
  else if code < 0x10000 then
    [(0xE0 + code / 0x1000).toUInt8, (0x80 + code / 0x40 % 0x40).toUInt8, (0x80 + code % 0x40).toUInt8]
  else
    [(0xF0 + code / 0x40000).toUInt8, (0x80 + code / 0x1000 % 0x40).toUInt8,
      (0x80 + code / 0x40 % 0x40).toUInt8, (0x80 + code % 0x40).toUInt8]

def unescaped (c : UInt8) : Option UInt8 :=
  if c = 34 || c = 92 || c = 47 then some c
  else if c = 98 then some 8
  else if c = 102 then some 12
  else if c = 110 then some 10
  else if c = 114 then some 13
  else if c = 116 then some 9
  else none

/-- The string up to its closing quote; control characters and lone surrogates are refused. -/
def readChars : List UInt8 → Option (List UInt8 × List UInt8)
  | [] => none
  | 34 :: rest => some ([], rest)
  | 92 :: 117 :: a :: b :: c :: d :: rest =>
    match codeUnit a b c d with
    | none => none
    | some unit =>
      if unit < 0xD800 || 0xE000 ≤ unit then
        (readChars rest).map fun (s, rest) => (utf8 unit ++ s, rest)
      else if unit < 0xDC00 then
        match rest with
        | 92 :: 117 :: a :: b :: c :: d :: rest =>
          match codeUnit a b c d with
          | none => none
          | some low =>
            if 0xDC00 ≤ low && low < 0xE000 then
              (readChars rest).map fun (s, rest) =>
                (utf8 (0x10000 + (unit - 0xD800) * 0x400 + (low - 0xDC00)) ++ s, rest)
            else none
        | _ => none
      else none
  | 92 :: c :: rest =>
    match unescaped c with
    | none => none
    | some c => (readChars rest).map fun (s, rest) => (c :: s, rest)
  | c :: rest => if c < 32 then none else (readChars rest).map fun (s, rest) => (c :: s, rest)

def isBlank (c : UInt8) : Bool := c == 32 || c == 9 || c == 10 || c == 13

def skipBlanks (text : List UInt8) : List UInt8 := text.dropWhile isBlank

def isDigit (c : UInt8) : Bool := 48 ≤ c && c ≤ 57

/-- At least one digit. -/
def readDigits (text : List UInt8) : Option (List UInt8 × List UInt8) :=
  if (text.takeWhile isDigit).isEmpty then none
  else some (text.takeWhile isDigit, text.dropWhile isDigit)

def readInteger (text : List UInt8) : Option (List UInt8 × List UInt8) :=
  match text with
  | 48 :: rest => some ([48], rest)
  | _ => readDigits text

def readFraction (text : List UInt8) : Option (List UInt8 × List UInt8) :=
  match text with
  | 46 :: rest => (readDigits rest).map fun (digits, rest) => (46 :: digits, rest)
  | _ => some ([], text)

def digitsValue (digits : List UInt8) : Nat :=
  digits.foldl (fun n c => n * 10 + (c.toNat - 48)) 0

/-- An exponent; one that leads beyond the largest double is refused. -/
def readExponent (fractionDigits : Nat) (text : List UInt8) : Option (List UInt8 × List UInt8) :=
  match text with
  | e :: rest =>
    if e = 101 || e = 69 then
      match rest with
      | 45 :: rest => (readDigits rest).map fun (digits, rest) => (e :: 45 :: digits, rest)
      | 43 :: rest =>
        (readDigits rest).bind fun (digits, rest) =>
          if digitsValue digits ≤ 308 + fractionDigits then some (e :: 43 :: digits, rest) else none
      | _ =>
        (readDigits rest).bind fun (digits, rest) =>
          if digitsValue digits ≤ 308 + fractionDigits then some (e :: digits, rest) else none
    else some ([], text)
  | [] => some ([], [])

def readUnsigned (text : List UInt8) : Option (List UInt8 × List UInt8) := do
  let (integer, rest) ← readInteger text
  let (fraction, rest) ← readFraction rest
  let (exponent, rest) ← readExponent (fraction.length - 1) rest
  some (integer ++ (fraction ++ exponent), rest)

def readNumber (text : List UInt8) : Option (List UInt8 × List UInt8) :=
  match text with
  | 45 :: rest => (readUnsigned rest).map fun (token, rest) => (45 :: token, rest)
  | _ => readUnsigned text

mutual

/-- A value; `fuel` bounds the nesting and the number of members. -/
def readValue (fuel : Nat) (text : List UInt8) : Option (Json × List UInt8) :=
  match fuel with
  | 0 => none
  | fuel + 1 =>
    match text with
    | 110 :: 117 :: 108 :: 108 :: rest => some (null, rest)
    | 116 :: 114 :: 117 :: 101 :: rest => some (bool true, rest)
    | 102 :: 97 :: 108 :: 115 :: 101 :: rest => some (bool false, rest)
    | 34 :: rest => (readChars rest).map fun (s, rest) => (str s, rest)
    | 91 :: rest =>
      match skipBlanks rest with
      | 93 :: rest => some (arr [], rest)
      | rest => (readItems fuel rest).map fun (items, rest) => (arr items, rest)
    | 123 :: rest =>
      match skipBlanks rest with
      | 125 :: rest => some (obj [], rest)
      | rest => (readMembers fuel rest).map fun (members, rest) => (obj members, rest)
    | text => (readNumber text).map fun (token, rest) => (num token, rest)

def readItems (fuel : Nat) (text : List UInt8) : Option (List Json × List UInt8) :=
  match fuel with
  | 0 => none
  | fuel + 1 =>
    match readValue fuel text with
    | none => none
    | some (value, rest) =>
      match skipBlanks rest with
      | 44 :: rest => (readItems fuel (skipBlanks rest)).map fun (items, rest) => (value :: items, rest)
      | 93 :: rest => some ([value], rest)
      | _ => none

def readMembers (fuel : Nat) (text : List UInt8) : Option (List (List UInt8 × Json) × List UInt8) :=
  match fuel with
  | 0 => none
  | fuel + 1 =>
    match text with
    | 34 :: rest =>
      match readChars rest with
      | none => none
      | some (key, rest) =>
        match skipBlanks rest with
        | 58 :: rest =>
          match readValue fuel (skipBlanks rest) with
          | none => none
          | some (value, rest) =>
            match skipBlanks rest with
            | 44 :: rest =>
              (readMembers fuel (skipBlanks rest)).map fun (members, rest) => ((key, value) :: members, rest)
            | 125 :: rest => some ([(key, value)], rest)
            | _ => none
        | _ => none
    | _ => none

end

/-- The value a text holds, with blanks around it. -/
def readText (text : List UInt8) : Option Json :=
  match readValue (2 * text.length + 2) (skipBlanks text) with
  | some (value, rest) => if (skipBlanks rest).isEmpty then some value else none
  | none => none

end Reader

end Json

namespace ModelServer

/-- A reader and a writer of JSON texts. -/
def RapidJson.textual : RapidJson := ⟨Json.readText, Json.readText, Json.writeEvents⟩

theorem RapidJson.textual_writesInPlace : RapidJson.textual.WritesInPlace where
  raw value pre post := by
    have hraw (w : Json.Writer) : w.run [.raw (Json.writeEvents value.events)] = w.run value.events := by
      rw [Json.writeEvents_events, Json.Writer.run_events]
      rfl
    simp only [textual, Json.writeEvents, Json.Writer.run_append] at hraw ⊢
    rw [hraw]
  string s := Json.zero_notMem_quoted s

end ModelServer
