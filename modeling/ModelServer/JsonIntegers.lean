import Mathlib.Data.List.TakeWhile
import ModelServer.JsonKeptBytes
import ModelServer.JsonReading

namespace Json

section Integers

/-- A natural number in decimals. -/
def decimals (n : Nat) : List UInt8 := (Nat.toDigits 10 n).map Char.toUInt8

/-- An integer in decimals, as JSON spells it. -/
def integerText : Int → List UInt8
  | .ofNat n => decimals n
  | .negSucc n => 45 :: decimals (n + 1)

theorem toUInt8_digitChar : ∀ d < 10, (Nat.digitChar d).toUInt8 = 48 + d.toUInt8 := by decide

theorem decimals_of_lt {n : Nat} (h : n < 10) : decimals n = [48 + n.toUInt8] := by
  rw [decimals, Nat.toDigits_of_lt_base h, List.map_singleton, toUInt8_digitChar n h]

theorem decimals_of_le {n : Nat} (h : 10 ≤ n) : decimals n = decimals (n / 10) ++ [48 + (n % 10).toUInt8] := by
  rw [decimals, Nat.toDigits_of_base_le (by decide) h, List.map_append, List.map_singleton, toUInt8_digitChar _ (Nat.mod_lt n (by decide))]
  rfl

theorem isDigit_digit : ∀ d < 10, isDigit (48 + d.toUInt8) = true := by decide

theorem isDigit_of_mem_decimals (n : Nat) : ∀ c ∈ decimals n, isDigit c = true := by
  induction n using Nat.strongRecOn with
  | ind n ih =>
    intro c hc
    rcases Nat.lt_or_ge n 10 with hlt | hge
    · rw [decimals_of_lt hlt] at hc
      rw [List.mem_singleton.mp hc]
      exact isDigit_digit n hlt
    · rw [decimals_of_le hge] at hc
      rcases List.mem_append.mp hc with hc | hc
      · exact ih (n / 10) (by omega) c hc
      · rw [List.mem_singleton.mp hc]
        exact isDigit_digit _ (Nat.mod_lt n (by decide))

theorem digit_ne_zero : ∀ d < 10, d ≠ 0 → 48 + d.toUInt8 ≠ 48 := by decide

/-- Only zero starts with a zero. -/
theorem decimals_head {n : Nat} (h : n ≠ 0) : ∃ c cs, decimals n = c :: cs ∧ c ≠ 48 := by
  induction n using Nat.strongRecOn with
  | ind n ih =>
    rcases Nat.lt_or_ge n 10 with hlt | hge
    · exact ⟨_, [], decimals_of_lt hlt, digit_ne_zero n hlt h⟩
    · obtain ⟨c, cs, heq, hne⟩ := ih (n / 10) (by omega) (by omega)
      refine ⟨c, cs ++ [48 + (n % 10).toUInt8], ?_, hne⟩
      rw [decimals_of_le hge, heq]
      rfl

theorem digit_value : ∀ d < 10, (48 + d.toUInt8).toNat - 48 = d := by decide

theorem digitsValue_append (digits : List UInt8) (c : UInt8) :
    digitsValue (digits ++ [c]) = digitsValue digits * 10 + (c.toNat - 48) := by
  rw [digitsValue, List.foldl_append]
  rfl

theorem digitsValue_decimals (n : Nat) : digitsValue (decimals n) = n := by
  induction n using Nat.strongRecOn with
  | ind n ih =>
    rcases Nat.lt_or_ge n 10 with hlt | hge
    · rw [decimals_of_lt hlt, ← List.nil_append [_], digitsValue_append, digit_value n hlt]
      exact Nat.zero_add n
    · rw [decimals_of_le hge, digitsValue_append, ih (n / 10) (by omega), digit_value _ (Nat.mod_lt n (by decide))]
      omega

theorem readUnsigned_decimals (n : Nat) : readUnsigned (decimals n) = some (decimals n, []) := by
  have hinteger : readInteger (decimals n) = some (decimals n, []) := by
    by_cases hzero : n = 0
    · subst hzero
      rfl
    · obtain ⟨c, cs, heq, hne⟩ := decimals_head hzero
      have hall : (decimals n).takeWhile isDigit = decimals n := List.takeWhile_eq_self_iff.mpr (isDigit_of_mem_decimals n)
      have hnone : (decimals n).dropWhile isDigit = [] := List.dropWhile_eq_nil_iff.mpr (isDigit_of_mem_decimals n)
      rw [readInteger, readDigits, hall, hnone, if_neg (by simp [heq])]
      intro rest hrest
      rw [heq] at hrest
      exact hne (List.cons.inj hrest).1
  rw [readUnsigned, hinteger]
  show some (decimals n ++ ([] ++ []), []) = _
  rw [List.append_nil, List.append_nil]

theorem readNumber_integerText (n : Int) : readNumber (integerText n) = some (integerText n, []) := by
  cases n with
  | ofNat n =>
    rw [integerText, readNumber, readUnsigned_decimals]
    intro rest hrest
    have hdigit := isDigit_of_mem_decimals n 45 (by rw [hrest]; exact List.mem_cons_self)
    cases hdigit
  | negSucc n =>
    rw [integerText, readNumber, readUnsigned_decimals]
    rfl

end Integers

section Written

theorem zero_notNumeric : NotNumeric 0 := ⟨rfl, by decide⟩

mutual

/-- What is written of a value has no NUL. -/
theorem zero_notMem_text : ∀ value : Json, Readable value → 0 ∉ text value
  | .null, _ => by decide
  | .bool true, _ => by decide
  | .bool false, _ => by decide
  | .num token, h => notMem_of_readNumber zero_notNumeric (h token (List.mem_singleton.mpr rfl))
  | .str s, _ => zero_notMem_quoted s
  | .arr items, h => by
    have hitems := zero_notMem_itemsText true items h
    simp [text, hitems]
  | .obj members, h => by
    have hmembers := zero_notMem_membersText true members h
    simp [text, hmembers]

theorem zero_notMem_itemsText (first : Bool) : ∀ items : List Json,
    (∀ token ∈ itemTokens items, readNumber token = some (token, [])) → 0 ∉ itemsText first items
  | [], _ => List.not_mem_nil
  | v :: vs, h => by
    have hvalue := zero_notMem_text v fun token ht => h token (List.mem_append_left _ ht)
    have hlater := zero_notMem_itemsText false vs fun token ht => h token (List.mem_append_right _ ht)
    cases first with
    | true => simp [itemsText, hvalue, hlater]
    | false => simp [itemsText, hvalue, hlater]

theorem zero_notMem_membersText (first : Bool) : ∀ members : List (List UInt8 × Json),
    (∀ token ∈ memberTokens members, readNumber token = some (token, [])) → 0 ∉ membersText first members
  | [], _ => List.not_mem_nil
  | (k, v) :: ms, h => by
    have hkey := zero_notMem_quoted k
    have hvalue := zero_notMem_text v fun token ht => h token (List.mem_append_left _ ht)
    have hlater := zero_notMem_membersText false ms fun token ht => h token (List.mem_append_right _ ht)
    cases first with
    | true => simp [membersText, hkey, hvalue, hlater]
    | false => simp [membersText, hkey, hvalue, hlater]

end

end Written

end Json
