import ModelServer.StructuredText

/-! Parts of a text that a search goes over. -/

namespace ModelServer

namespace SpecialChars

section Skipping

/-- The byte before a text that follows this one. -/
def lastByte (prev : Option Byte) (text : Str) : Option Byte := text.foldl (fun _ c => some c) prev

/-- The search goes over a part of the text and does not stop in it. -/
def Skips (target : Str) (d d' : SpecialChars) (prev : Option Byte) (text after : Str) : Prop :=
  scan target d prev (text ++ after) = (scan target d' (lastByte prev text) after).map (· + text.length)

variable {target : Str} {d d' d'' : SpecialChars} {prev : Option Byte} {text text' after : Str} {first c : Byte}

theorem Skips.nil : Skips target d d prev [] after := by
  rw [Skips]
  show scan target d prev after = (scan target d prev after).map (· + 0)
  cases scan target d prev after with
  | none => rfl
  | some k => rfl

theorem Skips.append (h : Skips target d d' prev text (text' ++ after)) (h' : Skips target d' d'' (lastByte prev text) text' after) :
    Skips target d d'' prev (text ++ text') after := by
  have hlast : lastByte prev (text ++ text') = lastByte (lastByte prev text) text' := List.foldl_append
  rw [Skips] at h h' ⊢
  rw [List.append_assoc, h, h', hlast, Option.map_map, List.length_append]
  congr 1
  funext k
  show k + text'.length + text.length = k + (text.length + text'.length)
  omega

theorem Skips.byte (htarget : target.head? = some first) (d : SpecialChars) (prev : Option Byte) (c : Byte) (after : Str)
    (hpass : d.outside = false ∨ c ≠ first) :
    Skips target d (d.step prev c after) prev [c] after := by
  have hno : ¬(d.outside && target.isPrefixOf (c :: after)) = true := by
    intro h
    rw [Bool.and_eq_true] at h
    rcases hpass with hinside | hne
    · rw [hinside] at h
      cases h.1
    · cases target with
      | nil => cases htarget
      | cons x target =>
        obtain rfl := Option.some.inj htarget
        have hbegins := List.isPrefixOf_iff_prefix.mp h.2
        exact hne (List.cons_prefix_cons.mp hbegins).1.symm
  rw [Skips, List.singleton_append, scan, if_neg hno]
  rfl

theorem Skips.cons (htarget : target.head? = some first) (hpass : d.outside = false ∨ c ≠ first)
    (h : Skips target (d.step prev c (text ++ after)) d' (some c) text after) : Skips target d d' prev (c :: text) after :=
  (Skips.byte htarget _ _ _ _ hpass).append h

/-- A byte that opens and closes nothing. -/
def Ordinary (c : Byte) : Prop := c ≠ 123 ∧ c ≠ 125 ∧ c ≠ 91 ∧ c ≠ 93 ∧ c ≠ 34 ∧ c ≠ 39

theorem step_ordinary (h : Ordinary c) (prev : Option Byte) (rest : Str) : d.step prev c rest = d := by
  obtain ⟨hopen, hclose, hopen', hclose', hquote, hsingle⟩ := h
  have hne {x : Byte} (hx : c ≠ x) : (c == x) = false := beq_false_of_ne hx
  have h1 : (c == char '\x7b') = false := hne hopen
  have h2 : (c == char '\x7d') = false := hne hclose
  have h3 : (c == char '[') = false := hne hopen'
  have h4 : (c == char ']') = false := hne hclose'
  have h5 : (c == char '"') = false := hne hquote
  have h6 : (c == char '\'') = false := hne hsingle
  simp [step, h1, h2, h3, h4, h5, h6]

theorem Skips.ordinary (htarget : target.head? = some first) (htext : ∀ c ∈ text, Ordinary c)
    (hpass : d.outside = false ∨ ∀ c ∈ text, c ≠ first) : Skips target d d prev text after := by
  induction text generalizing prev with
  | nil => exact Skips.nil
  | cons c text ih =>
    refine Skips.cons htarget (hpass.imp_right fun h => h c List.mem_cons_self) ?_
    rw [step_ordinary (htext c List.mem_cons_self)]
    exact ih (fun e he => htext e (List.mem_cons_of_mem c he)) (hpass.imp_right fun h e he => h e (List.mem_cons_of_mem c he))

/-- What comes next starts neither with a blank nor with a letter. -/
def Bounded (after : Str) : Prop := ∀ c ∈ after.head?, isWordChar c = false ∧ isspace c = false

/-- A quote may open behind this byte. -/
def MayOpen (prev : Option Byte) : Prop := prev.any isWordChar = false ∧ prev ≠ some (char '\\')

/-- Outside of quotes, and not in less than no container. -/
structure Unquoted (d : SpecialChars) : Prop where
  double : d.insideQuote = false
  single : d.insideSingleQuote = false
  brackets : 0 ≤ d.bracketDepth
  braces : 0 ≤ d.braceDepth

theorem step_quote (hdouble : d.insideQuote = false) (hescaped : prev ≠ some (char '\\')) (rest : Str) :
    d.step prev 39 rest = d.apostrophe prev rest := by
  have hescaped' : (prev == some (char '\\')) = false := beq_false_of_ne hescaped
  have h1 : ((39 : Byte) == char '\x7b') = false := rfl
  have h2 : ((39 : Byte) == char '\x7d') = false := rfl
  have h3 : ((39 : Byte) == char '[') = false := rfl
  have h4 : ((39 : Byte) == char ']') = false := rfl
  have h5 : ((39 : Byte) == char '"') = false := rfl
  simp only [step, hescaped', hdouble, h1, h2, h3, h4, h5, Bool.and_false, Bool.false_and, Bool.false_eq_true, if_false]
  rfl

theorem step_quote_open (hd : Unquoted d) (hprev : MayOpen prev) (rest : Str) :
    d.step prev 39 rest = { d with insideSingleQuote := true } := by
  rw [step_quote hd.double hprev.2, apostrophe, hd.single, hprev.1]
  rfl

theorem step_quote_close (hd : Unquoted d) (hescaped : prev ≠ some (char '\\')) (hafter : Bounded after) :
    SpecialChars.step { d with insideSingleQuote := true } prev 39 after = d := by
  have hword : after.head?.any isWordChar = false ∧ (after.dropWhile isspace).head?.any isWordChar = false := by
    cases after with
    | nil => exact ⟨rfl, rfl⟩
    | cons c after =>
      obtain ⟨hword, hspace⟩ := hafter c rfl
      rw [List.dropWhile_cons_of_neg (by simp [hspace])]
      exact ⟨hword, hword⟩
  rw [step_quote (d := { d with insideSingleQuote := true }) hd.double hescaped, apostrophe, hword.1, hword.2, Bool.and_false]
  have hsingle := hd.single
  cases d with
  | mk bracketDepth braceDepth insideQuote insideSingleQuote =>
    cases hsingle
    rfl

/-- Within single quotes all but a quote is passed over. -/
theorem step_inside (hsingle : d.insideSingleQuote = true) (hc : c ≠ 39) (rest : Str) : d.step prev c rest = d := by
  have hquote : (c == char '\'') = false := beq_false_of_ne hc
  simp only [step, hsingle, hquote, Bool.or_true, Bool.not_true, Bool.false_and, Bool.and_false, Bool.false_eq_true, if_false]

theorem Skips.inside (htarget : target.head? = some first) (hsingle : d.insideSingleQuote = true) (htext : ∀ c ∈ text, c ≠ 39) :
    Skips target d d prev text after := by
  induction text generalizing prev with
  | nil => exact Skips.nil
  | cons c text ih =>
    have hinside : d.outside = false := by
      rw [outside, hsingle]
      exact Bool.and_false _
    refine Skips.cons htarget (Or.inl hinside) ?_
    rw [step_inside hsingle (htext c List.mem_cons_self)]
    exact ih fun e he => htext e (List.mem_cons_of_mem c he)

theorem lastByte_of_mem (prev : Option Byte) (text : Str) : lastByte prev text = prev ∨ ∃ c ∈ text, lastByte prev text = some c := by
  induction text generalizing prev with
  | nil => exact Or.inl rfl
  | cons c text ih =>
    rcases ih (some c) with h | ⟨e, he, h⟩
    · exact Or.inr ⟨c, List.mem_cons_self, h⟩
    · exact Or.inr ⟨e, List.mem_cons_of_mem c he, h⟩

theorem lastByte_concat (prev : Option Byte) (text : Str) (c : Byte) : lastByte prev (text ++ [c]) = some c := by
  rw [lastByte, List.foldl_append]
  rfl

/-- A string in single quotes, without a quote or a backslash in it. -/
theorem Skips.quoted (htarget : target.head? = some first) (hfirst : first ≠ 39) (hd : Unquoted d) (hprev : MayOpen prev)
    (htext : ∀ c ∈ text, c ≠ 39 ∧ c ≠ 92) (hafter : Bounded after) : Skips target d d prev (39 :: (text ++ [39])) after := by
  refine Skips.cons htarget (Or.inr hfirst.symm) ?_
  rw [step_quote_open hd hprev]
  refine (Skips.inside htarget rfl fun c hc => (htext c hc).1).append ?_
  have hescaped : lastByte (some 39) text ≠ some (char '\\') := by
    rcases lastByte_of_mem (some 39) text with h | ⟨c, hc, h⟩
    · rw [h]
      decide
    · rw [h]
      exact fun hsame => (htext c hc).2 (Option.some.inj hsame)
  have hclose := Skips.byte htarget { d with insideSingleQuote := true } (lastByte (some 39) text) 39 after (Or.inr hfirst.symm)
  rwa [step_quote_close hd hescaped hafter] at hclose

theorem step_open {opening : Byte} (hd : Unquoted d) (rest : Str) (h : opening = 91 ∨ opening = 123) :
    d.step prev opening rest =
      if opening = 91 then { d with bracketDepth := d.bracketDepth + 1 } else { d with braceDepth := d.braceDepth + 1 } := by
  have hquotes : (!(d.insideQuote || d.insideSingleQuote)) = true := by
    rw [hd.double, hd.single]
    rfl
  rcases h with rfl | rfl
  · have h1 : ((91 : Byte) == char '\x7b') = false := rfl
    have h2 : ((91 : Byte) == char '\x7d') = false := rfl
    have h3 : ((91 : Byte) == char '[') = true := rfl
    simp [step, hquotes, h1, h2, h3]
  · have h1 : ((123 : Byte) == char '\x7b') = true := rfl
    simp [step, hquotes, h1]

theorem step_close {closing : Byte} (hd : Unquoted d) (rest : Str) (h : closing = 93 ∨ closing = 125) :
    d.step prev closing rest =
      if closing = 93 then { d with bracketDepth := d.bracketDepth - 1 } else { d with braceDepth := d.braceDepth - 1 } := by
  have hquotes : (!(d.insideQuote || d.insideSingleQuote)) = true := by
    rw [hd.double, hd.single]
    rfl
  rcases h with rfl | rfl
  · have h1 : ((93 : Byte) == char '\x7b') = false := rfl
    have h2 : ((93 : Byte) == char '\x7d') = false := rfl
    have h3 : ((93 : Byte) == char '[') = false := rfl
    have h4 : ((93 : Byte) == char ']') = true := rfl
    simp [step, hquotes, h1, h2, h3, h4]
  · have h1 : ((125 : Byte) == char '\x7b') = false := rfl
    have h2 : ((125 : Byte) == char '\x7d') = true := rfl
    simp [step, hquotes, h1, h2]

/-- Brackets or braces around a text that is passed over inside of them. -/
theorem Skips.wrapped (htarget : target.head? = some first) {opening closing : Byte} (hd : Unquoted d)
    (hpair : opening = 91 ∧ closing = 93 ∨ opening = 123 ∧ closing = 125) (hfirst : opening ≠ first)
    (hinner : ∀ d' : SpecialChars, Unquoted d' → d'.outside = false → Skips target d' d' (some opening) text (closing :: after)) :
    Skips target d d prev (opening :: (text ++ [closing])) after := by
  rcases hpair with ⟨rfl, rfl⟩ | ⟨rfl, rfl⟩
  · let inner : SpecialChars := { d with bracketDepth := d.bracketDepth + 1 }
    have hunquoted : Unquoted inner := ⟨hd.double, hd.single, Int.add_nonneg hd.brackets (by decide), hd.braces⟩
    have hdepth : inner.outside = false := by
      have hbrackets := hd.brackets
      have hne : (d.bracketDepth + 1 == 0) = false := beq_false_of_ne (by omega)
      simp [outside, inner, hne]
    have hback : inner.step (lastByte (some 91) text) 93 after = d := by
      rw [step_close hunquoted _ (Or.inl rfl), if_pos rfl]
      show { d with bracketDepth := d.bracketDepth + 1 - 1 } = d
      rw [Int.add_sub_cancel]
    refine Skips.cons htarget (Or.inr hfirst) ?_
    rw [step_open hd _ (Or.inl rfl), if_pos rfl]
    refine (hinner inner hunquoted hdepth).append ?_
    have hclose := Skips.byte htarget inner (lastByte (some 91) text) 93 after (Or.inl hdepth)
    rwa [hback] at hclose
  · let inner : SpecialChars := { d with braceDepth := d.braceDepth + 1 }
    have hunquoted : Unquoted inner := ⟨hd.double, hd.single, hd.brackets, Int.add_nonneg hd.braces (by decide)⟩
    have hdepth : inner.outside = false := by
      have hbraces := hd.braces
      have hne : (d.braceDepth + 1 == 0) = false := beq_false_of_ne (by omega)
      simp [outside, inner, hne]
    have hback : inner.step (lastByte (some 123) text) 125 after = d := by
      rw [step_close hunquoted _ (Or.inr rfl), if_neg (by decide)]
      show { d with braceDepth := d.braceDepth + 1 - 1 } = d
      rw [Int.add_sub_cancel]
    refine Skips.cons htarget (Or.inr hfirst) ?_
    rw [step_open hd _ (Or.inr rfl), if_neg (by decide)]
    refine (hinner inner hunquoted hdepth).append ?_
    have hclose := Skips.byte htarget inner (lastByte (some 123) text) 125 after (Or.inl hdepth)
    rwa [hback] at hclose

end Skipping

end SpecialChars

end ModelServer
