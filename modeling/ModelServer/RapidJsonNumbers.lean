import Mathlib.Algebra.Group.Int.Defs
import ModelServer.JsonIntegers
import ModelServer.Lfm2Arguments

/-! A document parsed and written by RapidJSON, with its numbers. -/

namespace Json

section Spelling

mutual

/-- The value with each number spelled anew; there is none when a number is refused. -/
def respelled (number : List UInt8 → Option (List UInt8)) : Json → Option Json
  | null => some null
  | bool b => some (bool b)
  | num token => (number token).map num
  | str s => some (str s)
  | arr items => (respelledItems number items).map arr
  | obj members => (respelledMembers number members).map obj

def respelledItems (number : List UInt8 → Option (List UInt8)) : List Json → Option (List Json)
  | [] => some []
  | v :: vs => (respelled number v).bind fun v => (respelledItems number vs).map (v :: ·)

def respelledMembers (number : List UInt8 → Option (List UInt8)) : List (List UInt8 × Json) → Option (List (List UInt8 × Json))
  | [] => some []
  | (k, v) :: ms => (respelled number v).bind fun v => (respelledMembers number ms).map ((k, v) :: ·)

end

/-- The spelling of a double: it has a fraction or an exponent. -/
def IsReal (token : List UInt8) : Prop := 46 ∈ token ∨ 101 ∈ token

theorem not_isReal_integerText (n : Int) : ¬IsReal (integerText n) := by
  have hbytes : ∀ c ∈ integerText n, isDigit c = true ∨ c = 45 := by
    intro c hc
    cases n with
    | ofNat n => exact Or.inl (isDigit_of_mem_decimals n c hc)
    | negSucc n =>
      rcases List.mem_cons.mp hc with rfl | hc
      · exact Or.inr rfl
      · exact Or.inl (isDigit_of_mem_decimals (n + 1) c hc)
  rintro (hreal | hreal)
  · exact absurd (hbytes 46 hreal) (by decide)
  · exact absurd (hbytes 101 hreal) (by decide)

/-- Every number that is not refused gets a spelling that can be read. -/
def SpellsNumbers (number : List UInt8 → Option (List UInt8)) : Prop :=
  ∀ token token', number token = some token' → readNumber token' = some (token', [])

variable {number : List UInt8 → Option (List UInt8)}

mutual

theorem respelled_readable (hnumber : SpellsNumbers number) : ∀ (value : Json) {value' : Json}, respelled number value = some value' → Readable value'
  | .null, _, h => by
    cases h
    exact fun _ ht => absurd ht List.not_mem_nil
  | .bool _, _, h => by
    cases h
    exact fun _ ht => absurd ht List.not_mem_nil
  | .str _, _, h => by
    cases h
    exact fun _ ht => absurd ht List.not_mem_nil
  | .num token, _, h => by
    obtain ⟨token', hspelled, rfl⟩ := Option.map_eq_some_iff.mp h
    intro t ht
    rw [List.mem_singleton.mp ht]
    exact hnumber token token' hspelled
  | .arr items, _, h => by
    obtain ⟨items', hitems, rfl⟩ := Option.map_eq_some_iff.mp h
    exact respelledItems_readable hnumber items hitems
  | .obj members, _, h => by
    obtain ⟨members', hmembers, rfl⟩ := Option.map_eq_some_iff.mp h
    exact respelledMembers_readable hnumber members hmembers

theorem respelledItems_readable (hnumber : SpellsNumbers number) : ∀ (items : List Json) {items' : List Json}, respelledItems number items = some items' →
    ∀ token ∈ itemTokens items', readNumber token = some (token, [])
  | [], _, h => by
    cases h
    exact fun _ ht => absurd ht List.not_mem_nil
  | v :: vs, _, h => by
    obtain ⟨v', hv, h⟩ := Option.bind_eq_some_iff.mp h
    obtain ⟨vs', hvs, rfl⟩ := Option.map_eq_some_iff.mp h
    intro token ht
    rcases List.mem_append.mp ht with ht | ht
    · exact respelled_readable hnumber v hv token ht
    · exact respelledItems_readable hnumber vs hvs token ht

theorem respelledMembers_readable (hnumber : SpellsNumbers number) : ∀ (members : List (List UInt8 × Json)) {members' : List (List UInt8 × Json)},
    respelledMembers number members = some members' → ∀ token ∈ memberTokens members', readNumber token = some (token, [])
  | [], _, h => by
    cases h
    exact fun _ ht => absurd ht List.not_mem_nil
  | (k, v) :: ms, _, h => by
    obtain ⟨v', hv, h⟩ := Option.bind_eq_some_iff.mp h
    obtain ⟨ms', hms, rfl⟩ := Option.map_eq_some_iff.mp h
    intro token ht
    rcases List.mem_append.mp ht with ht | ht
    · exact respelled_readable hnumber v hv token ht
    · exact respelledMembers_readable hnumber ms hms token ht

end

mutual

theorem stringBytes_respelled : ∀ (value : Json) {value' : Json}, respelled number value = some value' →
    stringBytes value' = stringBytes value
  | .null, _, h => by
    cases h
    rfl
  | .bool _, _, h => by
    cases h
    rfl
  | .str _, _, h => by
    cases h
    rfl
  | .num _, _, h => by
    obtain ⟨token', -, rfl⟩ := Option.map_eq_some_iff.mp h
    rfl
  | .arr items, _, h => by
    obtain ⟨items', hitems, rfl⟩ := Option.map_eq_some_iff.mp h
    exact stringBytes_respelledItems items hitems
  | .obj members, _, h => by
    obtain ⟨members', hmembers, rfl⟩ := Option.map_eq_some_iff.mp h
    exact stringBytes_respelledMembers members hmembers

theorem stringBytes_respelledItems : ∀ (items : List Json) {items' : List Json}, respelledItems number items = some items' →
    itemStringBytes items' = itemStringBytes items
  | [], _, h => by
    cases h
    rfl
  | v :: vs, _, h => by
    obtain ⟨v', hv, h⟩ := Option.bind_eq_some_iff.mp h
    obtain ⟨vs', hvs, rfl⟩ := Option.map_eq_some_iff.mp h
    rw [itemStringBytes, itemStringBytes, stringBytes_respelled v hv, stringBytes_respelledItems vs hvs]

theorem stringBytes_respelledMembers : ∀ (members : List (List UInt8 × Json)) {members' : List (List UInt8 × Json)},
    respelledMembers number members = some members' → memberStringBytes members' = memberStringBytes members
  | [], _, h => by
    cases h
    rfl
  | (k, v) :: ms, _, h => by
    obtain ⟨v', hv, h⟩ := Option.bind_eq_some_iff.mp h
    obtain ⟨ms', hms, rfl⟩ := Option.map_eq_some_iff.mp h
    rw [memberStringBytes, memberStringBytes, stringBytes_respelled v hv, stringBytes_respelledMembers ms hms]

end

end Spelling

end Json

namespace ModelServer

/-- What the code relies on of RapidJSON: a document is the value of its text, written as the text of the value; integers up to
64 bits keep their spelling, and all others are doubles or refused. -/
structure RapidJson.Conforms (rj : RapidJson) (number : Str → Option Str) : Prop where
  document : ∀ text, 0 ∉ text → rj.document text = (Json.readText text).bind (Json.respelled number)
  write : ∀ value : Json, rj.write value.events = Json.writeEvents value.events
  spelled : Json.SpellsNumbers number
  integer : ∀ n : Int, -2 ^ 63 ≤ n → n < 2 ^ 64 → number (Json.integerText n) = some (Json.integerText n)
  exceeding : ∀ (n : Int) token, n < -2 ^ 63 ∨ 2 ^ 64 ≤ n → number (Json.integerText n) = some token → Json.IsReal token
  real : ∀ token token', Json.IsReal token → number token = some token' → Json.IsReal token'

section WrittenArguments

mutual

/-- The value whose calls `writeArgumentOfAnyType` makes. -/
def writtenArgument : Json → Json
  | .null => .str []
  | .bool b => .bool b
  | .num token => if exceedsInt64 token then .str [] else .num token
  | .str s => .str (cStr s)
  | .arr items => .arr (writtenItems items)
  | .obj members => .obj (writtenMembers members)

def writtenItems : List Json → List Json
  | [] => []
  | v :: vs => writtenArgument v :: writtenItems vs

def writtenMembers : List (Str × Json) → List (Str × Json)
  | [] => []
  | (k, v) :: ms => (cStr k, writtenArgument v) :: writtenMembers ms

end

mutual

theorem argumentEvents_eq : ∀ value : Json, argumentEvents value = (writtenArgument value).events
  | .null => rfl
  | .bool _ => rfl
  | .num token => by
    rw [argumentEvents, writtenArgument]
    split
    · rfl
    · rfl
  | .str _ => rfl
  | .arr items => by
    rw [argumentEvents, writtenArgument, Json.events, argumentItems_eq items]
  | .obj members => by
    rw [argumentEvents, writtenArgument, Json.events, argumentMembers_eq members]

theorem argumentItems_eq : ∀ items : List Json, argumentItems items = Json.itemEvents (writtenItems items)
  | [] => rfl
  | v :: vs => by
    rw [argumentItems, writtenItems, Json.itemEvents, argumentEvents_eq v, argumentItems_eq vs]

theorem argumentMembers_eq : ∀ members : List (Str × Json), argumentMembers members = Json.memberEvents (writtenMembers members)
  | [] => rfl
  | (k, v) :: ms => by
    rw [argumentMembers, writtenMembers, Json.memberEvents, argumentEvents_eq v, argumentMembers_eq ms]

end

mutual

theorem tokens_writtenArgument : ∀ value : Json, ∀ token ∈ Json.tokens (writtenArgument value), token ∈ Json.tokens value
  | .null, _, ht => ht
  | .bool _, _, ht => ht
  | .num n, token, ht => by
    rw [writtenArgument] at ht
    split at ht
    · exact absurd ht List.not_mem_nil
    · exact ht
  | .str _, _, ht => ht
  | .arr items, token, ht => tokens_writtenItems items token ht
  | .obj members, token, ht => tokens_writtenMembers members token ht

theorem tokens_writtenItems : ∀ items : List Json, ∀ token ∈ Json.itemTokens (writtenItems items), token ∈ Json.itemTokens items
  | [], _, ht => ht
  | v :: vs, token, ht => by
    rcases List.mem_append.mp ht with ht | ht
    · exact List.mem_append_left _ (tokens_writtenArgument v token ht)
    · exact List.mem_append_right _ (tokens_writtenItems vs token ht)

theorem tokens_writtenMembers : ∀ members : List (Str × Json),
    ∀ token ∈ Json.memberTokens (writtenMembers members), token ∈ Json.memberTokens members
  | [], _, ht => ht
  | (k, v) :: ms, token, ht => by
    rcases List.mem_append.mp ht with ht | ht
    · exact List.mem_append_left _ (tokens_writtenArgument v token ht)
    · exact List.mem_append_right _ (tokens_writtenMembers ms token ht)

end

mutual

/-- Strings without a NUL are written whole. -/
theorem stringBytes_writtenArgument : ∀ value : Json, 0 ∉ Json.stringBytes value →
    Json.stringBytes (writtenArgument value) = Json.stringBytes value
  | .null, _ => rfl
  | .bool _, _ => rfl
  | .num token, _ => by
    rw [writtenArgument]
    split
    · rfl
    · rfl
  | .str s, h => RapidJson.cStr_of_noNul h
  | .arr items, h => stringBytes_writtenItems items h
  | .obj members, h => stringBytes_writtenMembers members h

theorem stringBytes_writtenItems : ∀ items : List Json, 0 ∉ Json.itemStringBytes items →
    Json.itemStringBytes (writtenItems items) = Json.itemStringBytes items
  | [], _ => rfl
  | v :: vs, h => by
    rw [Json.itemStringBytes, List.mem_append, not_or] at h
    rw [writtenItems, Json.itemStringBytes, Json.itemStringBytes, stringBytes_writtenArgument v h.1, stringBytes_writtenItems vs h.2]

theorem stringBytes_writtenMembers : ∀ members : List (Str × Json), 0 ∉ Json.memberStringBytes members →
    Json.memberStringBytes (writtenMembers members) = Json.memberStringBytes members
  | [], _ => rfl
  | (k, v) :: ms, h => by
    rw [Json.memberStringBytes, List.mem_append, not_or, List.mem_append, not_or] at h
    rw [writtenMembers, Json.memberStringBytes, Json.memberStringBytes, RapidJson.cStr_of_noNul h.1, stringBytes_writtenArgument v h.2.1,
      stringBytes_writtenMembers ms h.2.2]

end

end WrittenArguments

section Bounded

/-- The value of a spelling without fraction and exponent is one of 64 bits, signed or unsigned. -/
def fits64 : Str → Bool
  | 45 :: digits => Json.digitsValue digits ≤ 2 ^ 63
  | digits => Json.digitsValue digits < 2 ^ 64

instance (token : Str) : Decidable (Json.IsReal token) := inferInstanceAs (Decidable (_ ∨ _))

/-- Integers of 64 bits, and no doubles. -/
def boundedNumber (token : Str) : Option Str :=
  if Json.readNumber token = some (token, []) ∧ fits64 token = true ∧ ¬Json.IsReal token then some token else none

/-- A reader and a writer of JSON texts with integers only. -/
def RapidJson.bounded : RapidJson :=
  ⟨Json.readText, fun text => (Json.readText text).bind (Json.respelled boundedNumber), Json.writeEvents⟩

theorem fits64_integerText (n : Int) : fits64 (Json.integerText n) = true ↔ -2 ^ 63 ≤ n ∧ n < 2 ^ 64 := by
  cases n with
  | ofNat n =>
    have hfits : fits64 (Json.decimals n) = decide (Json.digitsValue (Json.decimals n) < 2 ^ 64) := by
      rw [fits64]
      intro digits heq
      have hdigit := Json.isDigit_of_mem_decimals n 45 (by rw [heq]; exact List.mem_cons_self)
      cases hdigit
    rw [Json.integerText, hfits, Json.digitsValue_decimals, decide_eq_true_iff]
    have hcast : Int.ofNat n = (n : Int) := rfl
    rw [hcast]
    omega
  | negSucc n =>
    have hfits : fits64 (45 :: Json.decimals (n + 1)) = decide (Json.digitsValue (Json.decimals (n + 1)) ≤ 2 ^ 63) := rfl
    rw [Json.integerText, hfits, Json.digitsValue_decimals, decide_eq_true_iff, Int.negSucc_eq]
    omega

theorem boundedNumber_some {token token' : Str} (h : boundedNumber token = some token') :
    token' = token ∧ Json.readNumber token = some (token, []) ∧ fits64 token = true ∧ ¬Json.IsReal token := by
  unfold boundedNumber at h
  split at h
  next hfits =>
    cases h
    exact ⟨rfl, hfits⟩
  next => cases h

theorem RapidJson.bounded_conforms : RapidJson.bounded.Conforms boundedNumber where
  document _ _ := rfl
  write _ := rfl
  spelled token token' h := by
    obtain ⟨rfl, hread, -⟩ := boundedNumber_some h
    exact hread
  integer n hlow hhigh :=
    if_pos ⟨Json.readNumber_integerText n, (fits64_integerText n).mpr ⟨hlow, hhigh⟩, Json.not_isReal_integerText n⟩
  exceeding n token hn h := by
    obtain ⟨-, -, hfits, -⟩ := boundedNumber_some h
    obtain ⟨hlow, hhigh⟩ := (fits64_integerText n).mp hfits
    omega
  real token token' hreal h := absurd hreal (boundedNumber_some h).2.2.2

end Bounded

end ModelServer
