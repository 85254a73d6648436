import ModelServer.CallArrayParser

namespace ModelServer.PartialJsonBuilder

section Steps

theorem iterateAll_ended {b : PartialJsonBuilder} (h : b.state = .ended) (flag : Bool) (text : Str) :
    b.iterateAll flag text = some (b, flag) := by
  cases text with
  | nil => rfl
  | cons c text => rw [iterateAll, if_pos h]

theorem iterateAll_append (b : PartialJsonBuilder) (flag : Bool) (text later : Str) :
    b.iterateAll flag (text ++ later) = (b.iterateAll flag text).bind fun read => read.1.iterateAll read.2 later := by
  induction text generalizing b flag with
  | nil => rfl
  | cons c text ih =>
    rw [List.cons_append, iterateAll, iterateAll]
    by_cases hended : b.state = .ended
    · rw [if_pos hended, if_pos hended, Option.bind_some, iterateAll_ended hended]
    · rw [if_neg hended, if_neg hended]
      cases b.iterate c with
      | none => rfl
      | some read => exact ih read.1.advance read.2

theorem iterateAll_cons {b b' : PartialJsonBuilder} {c : Byte} {flag : Bool} (hended : b.state ≠ .ended) (h : b.iterate c = some (b', flag))
    (previous : Bool) (text : Str) : b.iterateAll previous (c :: text) = b'.advance.iterateAll flag text := by
  rw [iterateAll, if_neg hended, h]
  rfl

/-- Blanks count nowhere but in strings and keys. -/
theorem iterate_blank {b : PartialJsonBuilder} {c : Byte} (hstring : b.state ≠ .processingString) (hkey : b.state ≠ .processingKey)
    (hblank : isspace c = true) : b.iterate c = some (b, false) := by
  rw [iterate, if_pos ⟨hstring, hkey⟩, if_pos hblank]

theorem iterate_structural {b : PartialJsonBuilder} {c : Byte} (hstring : b.state ≠ .processingString) (hkey : b.state ≠ .processingKey)
    (hblank : isspace c = false) (hexpects : expects b.state c = true) : b.iterate c = some (b.structural c, false) := by
  rw [iterate, if_pos ⟨hstring, hkey⟩, if_neg (by simp [hblank]), if_pos hexpects]

theorem iterate_quoted {b : PartialJsonBuilder} (hstate : b.state = .processingString ∨ b.state = .processingKey) (c : Byte) :
    b.iterate c = some (b.quoted c) := by
  rw [iterate, if_neg]
  rintro ⟨hstring, hkey⟩
  rcases hstate with hstate | hstate
  · exact hstring hstate
  · exact hkey hstate

end Steps

section Backslashes

theorem backslashCount_concat (text : Str) (c : Byte) : backslashCount (text ++ [c]) = if c = 92 then backslashCount text + 1 else 0 := by
  have hreverse : (text ++ [c]).reverse = c :: text.reverse := List.reverse_concat ..
  rw [backslashCount, hreverse]
  split
  next hc =>
    subst hc
    rfl
  next hc =>
    have hchar : (c == char '\\') = false := beq_false_of_ne hc
    rw [List.takeWhile_cons_of_neg (by simp [hchar])]
    rfl

/-- No character is escaped by the end of this text. -/
def Closes (text : Str) : Prop := backslashCount text % 2 = 0

theorem Closes.concat {text : Str} {c : Byte} (hc : c ≠ 92) : Closes (text ++ [c]) := by
  rw [Closes, backslashCount_concat, if_neg hc]

theorem Closes.append {text later : Str} (h : Closes text) (hlater : ∀ c ∈ later, c ≠ 92) : Closes (text ++ later) := by
  induction later using List.reverseRecOn with
  | nil =>
    rw [List.append_nil]
    exact h
  | append_singleton later c _ =>
    rw [← List.append_assoc]
    exact Closes.concat (hlater c (List.mem_append_right _ List.mem_cons_self))

theorem Closes.escape {text : Str} (h : Closes text) (d : Byte) : Closes (text ++ [92, d]) := by
  have happend : text ++ [92, d] = (text ++ [92]) ++ [d] := by rw [List.append_assoc]; rfl
  rw [happend]
  by_cases hd : d = 92
  · rw [Closes, backslashCount_concat, if_pos hd, backslashCount_concat, if_pos rfl]
    rw [Closes] at h
    omega
  · exact Closes.concat hd

end Backslashes

section Strings

variable {b : PartialJsonBuilder}

theorem quoted_plain {c : Byte} (hquote : c ≠ 34) (hbackslash : c ≠ 92) : b.quoted c = (b, false) := by
  have h34 : (c == char '"') = false := beq_false_of_ne hquote
  have h92 : (c == char '\\') = false := beq_false_of_ne hbackslash
  rw [quoted, h34, h92]
  rfl

/-- A part of a string or a key without quotes and backslashes. -/
theorem iterateAll_plain (hstate : b.state = .processingString ∨ b.state = .processingKey) {text : Str}
    (htext : ∀ c ∈ text, c ≠ 34 ∧ c ≠ 92) :
    b.iterateAll false text = some ({ b with currentPosition := b.currentPosition + text.length }, false) := by
  induction text generalizing b with
  | nil => rfl
  | cons c text ih =>
    have hended : b.state ≠ .ended := by
      rcases hstate with hstate | hstate
      · rw [hstate]; decide
      · rw [hstate]; decide
    obtain ⟨hquote, hbackslash⟩ := htext c List.mem_cons_self
    have hstep : b.iterate c = some (b, false) := by rw [iterate_quoted hstate, quoted_plain hquote hbackslash]
    have hrest := ih (b := b.advance) hstate fun d hd => htext d (List.mem_cons_of_mem c hd)
    rw [iterateAll_cons hended hstep, hrest, List.length_cons]
    simp only [advance, Nat.add_assoc, Nat.add_comm 1]

theorem quoted_backslash {before : Str} (hbefore : b.buffer.take b.currentPosition = before) :
    b.quoted 92 = (b, decide ((backslashCount before + 1) % 2 ≠ 0)) := by
  rw [quoted, hbefore]
  rfl

theorem quoted_quote {before : Str} (hbefore : b.buffer.take b.currentPosition = before) :
    b.quoted 34 = if backslashCount before % 2 = 1 then (b, false) else (b.closeQuote, false) := by
  rw [quoted, hbefore]
  rfl

/-- A backslash and what it escapes. -/
theorem iterateAll_escape (hstate : b.state = .processingString) {before rest : Str} {d : Byte}
    (hbuffer : b.buffer = before ++ 92 :: d :: rest) (hposition : b.currentPosition = before.length) (hcloses : Closes before) :
    b.iterateAll false [92, d] = some ({ b with currentPosition := before.length + 2 }, false) := by
  have hended : b.state ≠ .ended := by rw [hstate]; decide
  have hbefore : b.buffer.take b.currentPosition = before := by rw [hbuffer, hposition, List.take_left]
  have hbehind : b.advance.buffer.take b.advance.currentPosition = before ++ [92] := by
    show b.buffer.take (b.currentPosition + 1) = _
    rw [hbuffer, hposition, List.take_length_add_append]
    rfl
  have hfirst := iterate_quoted (Or.inl hstate) 92
  rw [quoted_backslash hbefore] at hfirst
  have hsecond : b.advance.iterate d = some (b.advance, false) := by
    rw [iterate_quoted (b := b.advance) (Or.inl hstate)]
    rw [Closes] at hcloses
    by_cases hquote : d = 34
    · rw [hquote, quoted_quote hbehind, backslashCount_concat, if_pos rfl, if_pos (by omega)]
    by_cases hbackslash : d = 92
    · rw [hbackslash, quoted_backslash hbehind, backslashCount_concat, if_pos rfl]
      have heven : (backslashCount before + 1 + 1) % 2 = 0 := by omega
      rw [heven]
      rfl
    · rw [quoted_plain hquote hbackslash]
  rw [iterateAll_cons hended hfirst, iterateAll_cons (b := b.advance) hended hsecond]
  simp only [iterateAll, advance, hposition]

theorem escapeSpecialCharacter_cases (c : Byte) : (∃ d, escapeSpecialCharacter c = [92, d]) ∨
    (escapeSpecialCharacter c = [c] ∧ c ≠ 34 ∧ c ≠ 92) := by
  unfold escapeSpecialCharacter
  split
  next => exact Or.inl ⟨34, rfl⟩
  split
  next => exact Or.inl ⟨92, rfl⟩
  split
  next => exact Or.inl ⟨98, rfl⟩
  split
  next => exact Or.inl ⟨102, rfl⟩
  split
  next => exact Or.inl ⟨110, rfl⟩
  split
  next => exact Or.inl ⟨114, rfl⟩
  split
  next => exact Or.inl ⟨116, rfl⟩
  next hquote hbackslash _ _ _ _ _ => exact Or.inr ⟨rfl, hquote, hbackslash⟩

/-- An escaped character stays in the string. -/
theorem iterateAll_escaped (hstate : b.state = .processingString) {before rest : Str} (c : Byte)
    (hbuffer : b.buffer = before ++ (escapeSpecialCharacter c ++ rest)) (hposition : b.currentPosition = before.length)
    (hcloses : Closes before) :
    b.iterateAll false (escapeSpecialCharacter c) =
        some ({ b with currentPosition := (before ++ escapeSpecialCharacter c).length }, false) ∧
      Closes (before ++ escapeSpecialCharacter c) := by
  rw [List.length_append]
  rcases escapeSpecialCharacter_cases c with ⟨d, hescape⟩ | ⟨hself, hquote, hbackslash⟩
  · rw [hescape] at hbuffer ⊢
    exact ⟨iterateAll_escape hstate hbuffer hposition hcloses, hcloses.escape d⟩
  · have hplain : ∀ x ∈ [c], x ≠ 34 ∧ x ≠ 92 := by
      intro x hx
      rw [List.mem_singleton.mp hx]
      exact ⟨hquote, hbackslash⟩
    rw [hself, iterateAll_plain (Or.inl hstate) hplain, hposition]
    exact ⟨rfl, Closes.concat hbackslash⟩

/-- Escaped text stays in the string. -/
theorem iterateAll_escapedText (hstate : b.state = .processingString) {before rest : Str} (text : Str)
    (hbuffer : b.buffer = before ++ (escapeSpecialCharacters text ++ rest)) (hposition : b.currentPosition = before.length)
    (hcloses : Closes before) :
    b.iterateAll false (escapeSpecialCharacters text) =
        some ({ b with currentPosition := (before ++ escapeSpecialCharacters text).length }, false) ∧
      Closes (before ++ escapeSpecialCharacters text) := by
  induction text generalizing b before with
  | nil =>
    have hnil : before ++ escapeSpecialCharacters [] = before := List.append_nil before
    rw [hnil, ← hposition]
    exact ⟨rfl, hcloses⟩
  | cons c text ih =>
    have hcons : escapeSpecialCharacters (c :: text) = escapeSpecialCharacter c ++ escapeSpecialCharacters text := rfl
    rw [hcons, List.append_assoc] at hbuffer
    obtain ⟨hfirst, hbetween⟩ := iterateAll_escaped hstate c hbuffer hposition hcloses
    rw [← List.append_assoc] at hbuffer
    have hlater := ih (b := { b with currentPosition := (before ++ escapeSpecialCharacter c).length }) hstate hbuffer rfl hbetween
    rw [hcons, iterateAll_append, hfirst, ← List.append_assoc]
    exact hlater

end Strings

end ModelServer.PartialJsonBuilder
