import Mathlib.Data.List.TakeWhile
import Mathlib.Tactic.Cases
import ModelServer.JsonText

/-! What the reader makes of texts that are put together from parts. -/

namespace Json

section Strings

theorem codeUnit_control : ∀ n < 32, codeUnit 48 48 (hexDigit (n.toUInt8 / 16)) (hexDigit (n.toUInt8 % 16)) = some n := by
  decide

theorem utf8_control : ∀ n < 32, utf8 n = [n.toUInt8] := by
  decide

/-- An escaped byte is read as itself. -/
theorem readChars_escapeByte (c : UInt8) (rest : List UInt8) :
    readChars (escapeByte c ++ rest) = (readChars rest).map fun read => (c :: read.1, read.2) := by
  unfold escapeByte
  split
  next h => subst h; rfl
  split
  next h => subst h; rfl
  split
  next h => subst h; rfl
  split
  next h => subst h; rfl
  split
  next h => subst h; rfl
  split
  next h => subst h; rfl
  split
  next h => subst h; rfl
  split
  next hcontrol =>
    have hlt : c.toNat < 32 := UInt8.lt_iff_toNat_lt.mp hcontrol
    have hself : c.toNat.toUInt8 = c := UInt8.ofNat_toNat
    have hcode := codeUnit_control _ hlt
    have hbytes := utf8_control _ hlt
    rw [hself] at hcode hbytes
    have hlow : (decide (c.toNat < 0xD800) || decide (0xE000 ≤ c.toNat)) = true := by
      rw [decide_eq_true (by omega), Bool.true_or]
    show readChars (92 :: 117 :: 48 :: 48 :: hexDigit (c / 16) :: hexDigit (c % 16) :: rest) = _
    rw [readChars]
    simp only [hcode, hlow, if_true, hbytes]
    rfl
  next hquote hbackslash _ _ _ _ _ hcontrol =>
    rw [List.singleton_append, readChars, if_neg hcontrol]
    · exact hquote
    · rintro _ _ _ _ _ rfl
      exact absurd rfl hbackslash
    · rintro _ _ rfl
      exact absurd rfl hbackslash

theorem readChars_quoted (s rest : List UInt8) : readChars (s.flatMap escapeByte ++ 34 :: rest) = some (s, rest) := by
  induction s with
  | nil => rfl
  | cons c s ih =>
    rw [List.flatMap_cons, List.append_assoc, readChars_escapeByte, ih]
    rfl

end Strings

section Numbers

/-- No number goes on in this text. -/
def Ends (rest : List UInt8) : Prop := ∀ c ∈ rest.head?, isDigit c = false ∧ c ≠ 46 ∧ c ≠ 101 ∧ c ≠ 69

theorem Ends.nil : Ends [] := by
  rintro c ⟨⟩

variable {text token left rest : List UInt8}

theorem readDigits_append (h : readDigits text = some (token, left)) (hrest : Ends rest) :
    readDigits (text ++ rest) = some (token, left ++ rest) := by
  have hstop : rest.takeWhile isDigit = [] ∧ rest.dropWhile isDigit = rest := by
    cases rest with
    | nil => exact ⟨rfl, rfl⟩
    | cons c rest =>
      obtain ⟨hdigit, -⟩ := hrest c rfl
      simp [hdigit]
  unfold readDigits at h ⊢
  split at h
  next => cases h
  next hsome =>
    cases h
    have hsame : (text ++ rest).takeWhile isDigit = text.takeWhile isDigit := by
      rw [List.takeWhile_append, hstop.1]
      split
      next hall => rw [List.append_nil, (List.takeWhile_prefix isDigit).eq_of_length hall]
      next => rfl
    have hleft : (text ++ rest).dropWhile isDigit = text.dropWhile isDigit ++ rest := by
      rw [List.dropWhile_append]
      split
      next hall => rw [List.isEmpty_iff.mp hall, hstop.2, List.nil_append]
      next => rfl
    rw [hsame, hleft, if_neg hsome]

theorem readInteger_append (h : readInteger text = some (token, left)) (hrest : Ends rest) :
    readInteger (text ++ rest) = some (token, left ++ rest) := by
  cases text with
  | nil => cases h
  | cons c text =>
    by_cases hzero : c = 48
    · subst hzero
      cases h
      rfl
    · have hdigits (text : List UInt8) : readInteger (c :: text) = readDigits (c :: text) := by
        rw [readInteger]
        rintro _ ⟨⟩
        exact hzero rfl
      rw [hdigits] at h
      rw [List.cons_append, hdigits]
      exact readDigits_append h hrest

theorem readFraction_append (h : readFraction text = some (token, left)) (hrest : Ends rest) :
    readFraction (text ++ rest) = some (token, left ++ rest) := by
  have hnone {text : List UInt8} (hpoint : text.head? ≠ some 46) : readFraction text = some ([], text) := by
    rw [readFraction]
    rintro _ rfl
    exact hpoint rfl
  cases text with
  | nil =>
    cases h
    refine hnone fun hpoint => ?_
    exact (hrest 46 hpoint).2.1 rfl
  | cons c text =>
    by_cases hpoint : c = 46
    · subst hpoint
      obtain ⟨read, hread, heq⟩ := Option.map_eq_some_iff.mp h
      obtain ⟨digits, after⟩ := read
      cases heq
      show (readDigits (text ++ rest)).map _ = _
      rw [readDigits_append hread hrest]
      rfl
    · rw [hnone (by simpa using hpoint)] at h
      cases h
      exact hnone (by simpa using hpoint)

/-- The digits of an exponent, unless they lead too far. -/
theorem readBoundedDigits_append (start : List UInt8) {bound : Nat}
    (h : ((readDigits text).bind fun read => if digitsValue read.1 ≤ bound then some (start ++ read.1, read.2) else none) =
      some (token, left)) (hrest : Ends rest) :
    ((readDigits (text ++ rest)).bind fun read =>
      if digitsValue read.1 ≤ bound then some (start ++ read.1, read.2) else none) = some (token, left ++ rest) := by
  obtain ⟨⟨digits, after⟩, hread, heq⟩ := Option.bind_eq_some_iff.mp h
  rw [readDigits_append hread hrest]
  dsimp only [Option.bind_some] at heq ⊢
  split at heq
  next hbound =>
    cases heq
    rw [if_pos hbound]
  next => cases heq

theorem readExponent_append {fractionDigits : Nat} (h : readExponent fractionDigits text = some (token, left)) (hrest : Ends rest) :
    readExponent fractionDigits (text ++ rest) = some (token, left ++ rest) := by
  have hnone {text : List UInt8} (he : ∀ c ∈ text.head?, c ≠ 101 ∧ c ≠ 69) : readExponent fractionDigits text = some ([], text) := by
    cases text with
    | nil => rfl
    | cons c text =>
      have hc := he c rfl
      unfold readExponent
      dsimp only
      rw [if_neg (by simp [hc.1, hc.2])]
  cases text with
  | nil =>
    cases h
    exact hnone fun c hc => (hrest c hc).2.2
  | cons e text =>
    by_cases he : e = 101 ∨ e = 69
    · have hbool : (decide (e = 101) || decide (e = 69)) = true := by simpa using he
      rw [List.cons_append]
      cases text with
      | nil =>
        unfold readExponent at h
        dsimp only at h
        rw [if_pos hbool] at h
        cases h
      | cons c text =>
        rw [List.cons_append]
        by_cases hminus : c = 45
        · subst hminus
          rw [readExponent, if_pos hbool] at h ⊢
          obtain ⟨⟨digits, after⟩, hread, heq⟩ := Option.map_eq_some_iff.mp h
          cases heq
          show (readDigits (text ++ rest)).map _ = _
          rw [readDigits_append hread hrest]
          rfl
        by_cases hplus : c = 43
        · subst hplus
          rw [readExponent, if_pos hbool] at h ⊢
          exact readBoundedDigits_append [e, 43] h hrest
        · have hdigits (text : List UInt8) : readExponent fractionDigits (e :: c :: text) =
              (readDigits (c :: text)).bind fun read =>
                if digitsValue read.1 ≤ 308 + fractionDigits then some ([e] ++ read.1, read.2) else none := by
            unfold readExponent
            dsimp only
            rw [if_pos hbool]
            split
            next heq =>
              cases heq
              exact absurd rfl hminus
            next heq =>
              cases heq
              exact absurd rfl hplus
            next => rfl
          rw [hdigits] at h ⊢
          exact readBoundedDigits_append [e] h hrest
    · have hne : ∀ c ∈ (e :: text).head?, c ≠ 101 ∧ c ≠ 69 := by
        rintro c ⟨⟩
        exact not_or.mp he
      rw [hnone hne] at h
      cases h
      exact hnone hne

theorem readUnsigned_append (h : readUnsigned text = some (token, left)) (hrest : Ends rest) :
    readUnsigned (text ++ rest) = some (token, left ++ rest) := by
  obtain ⟨⟨integer, left₁⟩, hinteger, h⟩ := Option.bind_eq_some_iff.mp h
  obtain ⟨⟨fraction, left₂⟩, hfraction, h⟩ := Option.bind_eq_some_iff.mp h
  obtain ⟨⟨exponent, left₃⟩, hexponent, h⟩ := Option.bind_eq_some_iff.mp h
  cases h
  rw [readUnsigned, readInteger_append hinteger hrest]
  show (readFraction (left₁ ++ rest)).bind _ = _
  rw [readFraction_append hfraction hrest]
  show (readExponent _ (left₂ ++ rest)).bind _ = _
  rw [readExponent_append hexponent hrest]
  rfl

/-- A number is read in the same way with a delimiter behind it. -/
theorem readNumber_append (h : readNumber text = some (token, left)) (hrest : Ends rest) :
    readNumber (text ++ rest) = some (token, left ++ rest) := by
  cases text with
  | nil => cases h
  | cons c text =>
    by_cases hminus : c = 45
    · subst hminus
      obtain ⟨⟨digits, after⟩, hread, heq⟩ := Option.map_eq_some_iff.mp h
      cases heq
      show (readUnsigned (text ++ rest)).map _ = _
      rw [readUnsigned_append hread hrest]
      rfl
    · have hunsigned (text : List UInt8) : readNumber (c :: text) = readUnsigned (c :: text) := by
        rw [readNumber]
        rintro _ ⟨⟩
        exact hminus rfl
      rw [hunsigned] at h
      rw [List.cons_append, hunsigned]
      exact readUnsigned_append h hrest

end Numbers

section Values

/-- The text of a value, wherever it stands; `none` is a text that is never read. -/
structure ReadsAs (text : List UInt8) (value : Option Json) : Prop where
  visible : ∃ c ∈ text.head?, isBlank c = false ∧ c ≠ 93
  /-- A value that is not read is short of fuel. -/
  read : ∀ fuel rest, Ends rest → readValue fuel (text ++ rest) = value.map (·, rest) ∨
    readValue fuel (text ++ rest) = none ∧ fuel < 2 * text.length

theorem skipBlanks_append {gap text : List UInt8} (hgap : ∀ c ∈ gap, isBlank c = true) :
    skipBlanks (gap ++ text) = skipBlanks text := by
  rw [skipBlanks, List.dropWhile_append, if_pos (by simpa using hgap)]
  rfl

theorem ReadsAs.skipBlanks {text : List UInt8} {value : Option Json} (h : ReadsAs text value) (rest : List UInt8) :
    skipBlanks (text ++ rest) = text ++ rest := by
  obtain ⟨c, hc, hblank, -⟩ := h.visible
  cases text with
  | nil => cases hc
  | cons c text =>
    cases hc
    rw [List.cons_append, Json.skipBlanks, List.dropWhile_cons_of_neg (by simp [hblank])]

/-- A text by itself. -/
theorem ReadsAs.readText {text : List UInt8} {value : Option Json} (h : ReadsAs text value) : readText text = value := by
  have hskip := h.skipBlanks []
  have hread := h.read (2 * text.length + 2) [] Ends.nil
  rw [List.append_nil] at hskip hread
  rw [Json.readText, hskip]
  rcases hread with hread | ⟨-, hfuel⟩
  · rw [hread]
    cases value with
    | none => rfl
    | some value => rfl
  · omega

/-- A text that is read whenever there is fuel at all. -/
theorem ReadsAs.of_succ {text : List UInt8} {value : Option Json} (hvisible : ∃ c ∈ text.head?, isBlank c = false ∧ c ≠ 93)
    (h : ∀ fuel rest, Ends rest → readValue (fuel + 1) (text ++ rest) = value.map (·, rest)) : ReadsAs text value where
  visible := hvisible
  read fuel rest hrest := by
    cases fuel with
    | zero =>
      obtain ⟨c, hc, -⟩ := hvisible
      have hne : text ≠ [] := by
        rintro rfl
        cases hc
      refine Or.inr ⟨rfl, ?_⟩
      have hlength := List.length_pos_iff.mpr hne
      omega
    | succ fuel => exact Or.inl (h fuel rest hrest)

theorem readValue_quote (fuel : Nat) (text : List UInt8) :
    readValue (fuel + 1) (34 :: text) = (readChars text).map fun read => (str read.1, read.2) := rfl

theorem readsAs_null : ReadsAs (text null) (some null) := ReadsAs.of_succ ⟨110, rfl, by decide⟩ fun _ _ _ => rfl

theorem readsAs_bool (b : Bool) : ReadsAs (text (bool b)) (some (bool b)) := by
  cases b with
  | true => exact ReadsAs.of_succ ⟨116, rfl, by decide⟩ fun _ _ _ => rfl
  | false => exact ReadsAs.of_succ ⟨102, rfl, by decide⟩ fun _ _ _ => rfl

theorem readsAs_str (s : List UInt8) : ReadsAs (quoted s) (some (str s)) := by
  refine ReadsAs.of_succ ⟨34, rfl, by decide⟩ fun fuel rest _ => ?_
  rw [quoted, List.cons_append, List.append_assoc, readValue_quote, List.singleton_append, readChars_quoted]
  rfl

/-- A number starts with a sign or a digit. -/
theorem readNumber_head {c : UInt8} {text token left : List UInt8} (h : readNumber (c :: text) = some (token, left)) :
    c = 45 ∨ isDigit c = true := by
  by_contra hc
  rw [not_or] at hc
  have hunsigned : readNumber (c :: text) = readUnsigned (c :: text) := by
    rw [readNumber]
    rintro _ ⟨⟩
    exact hc.1 rfl
  have hzero : c ≠ 48 := by
    rintro rfl
    exact hc.2 rfl
  have hinteger : readInteger (c :: text) = none := by
    rw [readInteger, readDigits, List.takeWhile_cons_of_neg hc.2]
    · rfl
    · rintro _ ⟨⟩
      exact hzero rfl
  rw [hunsigned, readUnsigned, hinteger] at h
  cases h

theorem readsAs_num {token : List UInt8} (h : readNumber token = some (token, [])) : ReadsAs token (some (num token)) := by
  cases token with
  | nil => cases h
  | cons c token =>
    have hhead := readNumber_head h
    have hfirst : isBlank c = false ∧ c ≠ 93 ∧ c ≠ 110 ∧ c ≠ 116 ∧ c ≠ 102 ∧ c ≠ 34 ∧ c ≠ 91 ∧ c ≠ 123 := by
      rcases hhead with rfl | hdigit
      · decide
      · rw [isDigit, Bool.and_eq_true, decide_eq_true_iff, decide_eq_true_iff, UInt8.le_iff_toNat_le, UInt8.le_iff_toNat_le] at hdigit
        have hne (d : UInt8) (hd : d.toNat < 48 ∨ 57 < d.toNat) : c ≠ d := by
          rintro rfl
          have h48 : UInt8.toNat 48 = 48 := rfl
          have h57 : UInt8.toNat 57 = 57 := rfl
          omega
        refine ⟨?_, hne _ (by decide), hne _ (by decide), hne _ (by decide), hne _ (by decide), hne _ (by decide), hne _ (by decide),
          hne _ (by decide)⟩
        rw [isBlank, beq_false_of_ne (hne _ (by decide)), beq_false_of_ne (hne _ (by decide)), beq_false_of_ne (hne _ (by decide)),
          beq_false_of_ne (hne _ (by decide))]
        rfl
    obtain ⟨hblank, hbracket, hn, ht, hf, hquote, hopen, hbrace⟩ := hfirst
    refine ReadsAs.of_succ ⟨c, rfl, hblank, hbracket⟩ fun fuel rest hrest => ?_
    have hread : readNumber (c :: (token ++ rest)) = some (c :: token, rest) := readNumber_append h hrest
    rw [List.cons_append, readValue, hread]
    · rfl
    all_goals
      intro _ heq
      obtain ⟨hsame, -⟩ := List.cons.inj heq
      contradiction

end Values

section Containers

/-- Texts with a comma and a gap before each but the first. -/
def joined (gap : List UInt8) : List (List UInt8) → List UInt8
  | [] => []
  | text :: texts => text ++ texts.flatMap fun text => 44 :: (gap ++ text)

theorem joined_cons_cons (gap first second : List UInt8) (texts : List (List UInt8)) :
    joined gap (first :: second :: texts) = first ++ 44 :: (gap ++ joined gap (second :: texts)) := by
  simp [joined]

variable {gap : List UInt8}

/-- The texts of the items, the last one with the bracket behind it. -/
theorem readItems_joined (hgap : ∀ c ∈ gap, isBlank c = true) (part : List UInt8 × Option Json) (parts : List (List UInt8 × Option Json))
    (h : ∀ p ∈ part :: parts, ReadsAs p.1 p.2) (fuel : Nat) (rest : List UInt8) :
    readItems fuel (joined gap ((part :: parts).map Prod.fst) ++ 93 :: rest) = ((part :: parts).mapM Prod.snd).map (·, rest) ∨
      readItems fuel (joined gap ((part :: parts).map Prod.fst) ++ 93 :: rest) = none ∧
        fuel < 2 * (joined gap ((part :: parts).map Prod.fst)).length + 1 := by
  induction parts generalizing part fuel with
  | nil =>
    cases fuel with
    | zero => exact Or.inr ⟨rfl, Nat.succ_pos _⟩
    | succ fuel =>
      have htext : joined gap ([part].map Prod.fst) = part.1 := List.append_nil _
      have hends : Ends (93 :: rest) := by
        rintro c ⟨⟩
        decide
      rw [htext, readItems, List.mapM_cons]
      rcases (h part List.mem_cons_self).read fuel _ hends with hread | ⟨hread, hfuel⟩
      · left
        rw [hread]
        cases part.2 with
        | none => rfl
        | some value => rfl
      · right
        rw [hread]
        exact ⟨rfl, by omega⟩
  | cons next parts ih =>
    cases fuel with
    | zero => exact Or.inr ⟨rfl, Nat.succ_pos _⟩
    | succ fuel =>
      have hitems := ih next (fun p hp => h p (List.mem_cons_of_mem part hp)) fuel
      have hskip (rest : List UInt8) : skipBlanks (gap ++ (joined gap ((next :: parts).map Prod.fst) ++ rest)) =
          joined gap ((next :: parts).map Prod.fst) ++ rest := by
        rw [skipBlanks_append hgap, List.map_cons, joined, List.append_assoc]
        exact (h next (List.mem_cons_of_mem part List.mem_cons_self)).skipBlanks _
      have htext : joined gap ((part :: next :: parts).map Prod.fst) = part.1 ++ 44 :: (gap ++ joined gap ((next :: parts).map Prod.fst)) :=
        joined_cons_cons ..
      have hends : Ends (44 :: (gap ++ (joined gap ((next :: parts).map Prod.fst) ++ 93 :: rest))) := by
        rintro c ⟨⟩
        decide
      rw [htext, List.append_assoc, List.cons_append, List.append_assoc, readItems, List.mapM_cons, List.length_append, List.length_cons,
        List.length_append]
      rcases (h part List.mem_cons_self).read fuel _ hends with hread | ⟨hread, hfuel⟩
      · rw [hread]
        cases part.2 with
        | none => exact Or.inl rfl
        | some value =>
          have hcomma : skipBlanks (44 :: (gap ++ (joined gap ((next :: parts).map Prod.fst) ++ 93 :: rest))) =
            44 :: (gap ++ (joined gap ((next :: parts).map Prod.fst) ++ 93 :: rest)) := rfl
          simp only [Option.map_some, hcomma, hskip]
          rcases hitems with hitems | ⟨hitems, hfuel⟩
          · left
            rw [hitems]
            cases (next :: parts).mapM Prod.snd with
            | none => rfl
            | some values => rfl
          · right
            rw [hitems]
            exact ⟨rfl, by omega⟩
      · right
        rw [hread]
        exact ⟨rfl, by omega⟩

theorem readsAs_arr (hgap : ∀ c ∈ gap, isBlank c = true) (parts : List (List UInt8 × Option Json)) (h : ∀ p ∈ parts, ReadsAs p.1 p.2) :
    ReadsAs (91 :: (joined gap (parts.map Prod.fst) ++ [93])) ((parts.mapM Prod.snd).map arr) := by
  cases parts with
  | nil =>
    exact ReadsAs.of_succ ⟨91, rfl, by decide⟩ fun _ _ _ => rfl
  | cons part parts =>
    refine ⟨⟨91, rfl, by decide⟩, fun fuel rest _ => ?_⟩
    cases fuel with
    | zero => exact Or.inr ⟨rfl, by rw [List.length_cons]; omega⟩
    | succ fuel =>
      obtain ⟨c, hc, hblank, hbracket⟩ := (h part List.mem_cons_self).visible
      have hskip : skipBlanks (joined gap ((part :: parts).map Prod.fst) ++ 93 :: rest) =
          joined gap ((part :: parts).map Prod.fst) ++ 93 :: rest := by
        rw [List.map_cons, joined, List.append_assoc]
        exact (h part List.mem_cons_self).skipBlanks _
      have hvalue : readValue (fuel + 1) (91 :: (joined gap ((part :: parts).map Prod.fst) ++ [93]) ++ rest) =
          (readItems fuel (joined gap ((part :: parts).map Prod.fst) ++ 93 :: rest)).map fun read => (arr read.1, read.2) := by
        rw [List.cons_append, List.append_assoc, List.singleton_append, readValue, hskip]
        split
        next heq =>
          rw [List.map_cons, joined, List.append_assoc] at heq
          cases hpart : part.1 with
          | nil =>
            rw [hpart] at hc
            cases hc
          | cons d text =>
            rw [hpart] at hc heq
            cases hc
            exact absurd (List.cons.inj heq).1 hbracket
        next => rfl
      rw [hvalue, List.length_cons, List.length_append]
      rcases readItems_joined hgap part parts h fuel rest with hitems | ⟨hitems, hfuel⟩
      · left
        rw [hitems]
        cases (part :: parts).mapM Prod.snd with
        | none => rfl
        | some values => rfl
      · right
        rw [hitems]
        refine ⟨rfl, ?_⟩
        rw [List.length_singleton]
        omega

/-- A member of an object with the text of its value, and what is read of it. -/
structure MemberPart where
  key : List UInt8
  text : List UInt8
  value : Option Json

def MemberPart.memberText (gap : List UInt8) (part : MemberPart) : List UInt8 := quoted part.key ++ 58 :: (gap ++ part.text)

def MemberPart.member (part : MemberPart) : Option (List UInt8 × Json) := part.value.map (part.key, ·)

/-- A member, with what comes behind its value. -/
theorem readMembers_member (hgap : ∀ c ∈ gap, isBlank c = true) {part : MemberPart} (h : ReadsAs part.text part.value) {c : UInt8}
    (hc : c = 44 ∨ c = 125) (fuel : Nat) (rest : List UInt8) :
    readMembers (fuel + 1) (part.memberText gap ++ c :: rest) = (part.value.bind fun value =>
      if c = 44 then (readMembers fuel (skipBlanks rest)).map fun read => ((part.key, value) :: read.1, read.2)
      else some ([(part.key, value)], rest)) ∨
    readMembers (fuel + 1) (part.memberText gap ++ c :: rest) = none ∧ fuel < 2 * part.text.length := by
  have hends : Ends (c :: rest) := by
    rcases hc with rfl | rfl
    · rintro c ⟨⟩
      decide
    · rintro c ⟨⟩
      decide
  have hchars : readChars (part.key.flatMap escapeByte ++ ([34] ++ (58 :: (gap ++ part.text) ++ c :: rest))) =
      some (part.key, 58 :: (gap ++ (part.text ++ c :: rest))) := by
    rw [List.singleton_append, readChars_quoted, List.cons_append, List.append_assoc]
  have hcolon : skipBlanks (58 :: (gap ++ (part.text ++ c :: rest))) = 58 :: (gap ++ (part.text ++ c :: rest)) := rfl
  rw [MemberPart.memberText, quoted, List.cons_append, List.cons_append, List.append_assoc, List.append_assoc, readMembers, hchars]
  simp only [hcolon]
  rw [skipBlanks_append hgap, h.skipBlanks]
  rcases h.read fuel _ hends with hread | ⟨hread, hfuel⟩
  · left
    rw [hread]
    cases part.value with
    | none => rfl
    | some value =>
      rcases hc with rfl | rfl
      · rfl
      · rfl
  · right
    rw [hread]
    exact ⟨rfl, hfuel⟩

theorem skipBlanks_memberText (part : MemberPart) (rest : List UInt8) :
    skipBlanks (part.memberText gap ++ rest) = part.memberText gap ++ rest := rfl

theorem length_memberText (gap : List UInt8) (part : MemberPart) : part.text.length + 3 ≤ (part.memberText gap).length := by
  simp only [MemberPart.memberText, quoted, List.length_append, List.length_cons]
  omega

/-- The text of a member whose value stands behind a gap of its own. -/
def MemberPart.spaced (spaced : List UInt8 × MemberPart) : List UInt8 := spaced.2.memberText spaced.1

/-- The texts of the members, the last one with the brace behind it. -/
theorem readMembers_joined (hgap : ∀ c ∈ gap, isBlank c = true) (part : List UInt8 × MemberPart) (parts : List (List UInt8 × MemberPart))
    (h : ∀ p ∈ part :: parts, (∀ c ∈ p.1, isBlank c = true) ∧ ReadsAs p.2.text p.2.value) (fuel : Nat) (rest : List UInt8) :
    readMembers fuel (joined gap ((part :: parts).map MemberPart.spaced) ++ 125 :: rest) =
        ((part :: parts).mapM fun p : List UInt8 × MemberPart => p.2.member).map (·, rest) ∨
      readMembers fuel (joined gap ((part :: parts).map MemberPart.spaced) ++ 125 :: rest) = none ∧
        fuel < 2 * (joined gap ((part :: parts).map MemberPart.spaced)).length + 1 := by
  induction parts generalizing part fuel with
  | nil =>
    cases fuel with
    | zero => exact Or.inr ⟨rfl, Nat.succ_pos _⟩
    | succ fuel =>
      obtain ⟨hblanks, hpart⟩ := h part List.mem_cons_self
      have htext : joined gap ([part].map MemberPart.spaced) = part.2.memberText part.1 := List.append_nil _
      have hlength := length_memberText part.1 part.2
      rw [htext, List.mapM_cons, MemberPart.member]
      rcases readMembers_member hblanks hpart (Or.inr rfl) fuel rest with hread | ⟨hread, hfuel⟩
      · left
        rw [hread]
        cases part.2.value with
        | none => rfl
        | some value => rfl
      · exact Or.inr ⟨hread, by omega⟩
  | cons next parts ih =>
    cases fuel with
    | zero => exact Or.inr ⟨rfl, Nat.succ_pos _⟩
    | succ fuel =>
      obtain ⟨hblanks, hpart⟩ := h part List.mem_cons_self
      have hmembers := ih next (fun p hp => h p (List.mem_cons_of_mem part hp)) fuel
      have hskip : skipBlanks (gap ++ (joined gap ((next :: parts).map MemberPart.spaced) ++ 125 :: rest)) =
          joined gap ((next :: parts).map MemberPart.spaced) ++ 125 :: rest := by
        rw [skipBlanks_append hgap, List.map_cons, joined, List.append_assoc]
        exact skipBlanks_memberText next.2 _
      have htext : joined gap ((part :: next :: parts).map MemberPart.spaced) =
          part.2.memberText part.1 ++ 44 :: (gap ++ joined gap ((next :: parts).map MemberPart.spaced)) := joined_cons_cons ..
      have hlength := length_memberText part.1 part.2
      rw [htext, List.append_assoc, List.cons_append, List.append_assoc, List.mapM_cons, List.length_append, List.length_cons,
        List.length_append, MemberPart.member]
      rcases readMembers_member hblanks hpart (Or.inl rfl) fuel _ with hread | ⟨hread, hfuel⟩
      · rw [hread]
        cases part.2.value with
        | none => exact Or.inl rfl
        | some value =>
          rw [Option.bind_some, if_pos rfl, hskip]
          rcases hmembers with hmembers | ⟨hmembers, hfuel⟩
          · left
            rw [hmembers]
            cases (next :: parts).mapM fun p : List UInt8 × MemberPart => p.2.member with
            | none => rfl
            | some values => rfl
          · right
            rw [hmembers]
            exact ⟨rfl, by omega⟩
      · exact Or.inr ⟨hread, by omega⟩

/-- An object whose members stand behind one gap, and their values behind gaps of their own. -/
theorem readsAs_spaced (hgap : ∀ c ∈ gap, isBlank c = true) (parts : List (List UInt8 × MemberPart))
    (h : ∀ p ∈ parts, (∀ c ∈ p.1, isBlank c = true) ∧ ReadsAs p.2.text p.2.value) :
    ReadsAs (123 :: (joined gap (parts.map MemberPart.spaced) ++ [125])) ((parts.mapM fun p : List UInt8 × MemberPart => p.2.member).map obj) := by
  cases parts with
  | nil =>
    exact ReadsAs.of_succ ⟨123, rfl, by decide⟩ fun _ _ _ => rfl
  | cons part parts =>
    refine ⟨⟨123, rfl, by decide⟩, fun fuel rest _ => ?_⟩
    cases fuel with
    | zero => exact Or.inr ⟨rfl, by rw [List.length_cons]; omega⟩
    | succ fuel =>
      have hvalue : readValue (fuel + 1) (123 :: (joined gap ((part :: parts).map MemberPart.spaced) ++ [125]) ++ rest) =
          (readMembers fuel (joined gap ((part :: parts).map MemberPart.spaced) ++ 125 :: rest)).map
            fun read => (obj read.1, read.2) := by
        rw [List.cons_append, List.append_assoc, List.singleton_append]
        rfl
      rw [hvalue, List.length_cons, List.length_append]
      rcases readMembers_joined hgap part parts h fuel rest with hmembers | ⟨hmembers, hfuel⟩
      · left
        rw [hmembers]
        cases (part :: parts).mapM fun p : List UInt8 × MemberPart => p.2.member with
        | none => rfl
        | some values => rfl
      · right
        rw [hmembers]
        refine ⟨rfl, ?_⟩
        rw [List.length_singleton]
        omega

theorem readsAs_obj (hgap : ∀ c ∈ gap, isBlank c = true) (parts : List MemberPart) (h : ∀ p ∈ parts, ReadsAs p.text p.value) :
    ReadsAs (123 :: (joined gap (parts.map (MemberPart.memberText gap)) ++ [125])) ((parts.mapM MemberPart.member).map obj) := by
  have hspaced : ∀ p ∈ parts.map (gap, ·), (∀ c ∈ p.1, isBlank c = true) ∧ ReadsAs p.2.text p.2.value := by
    intro p hp
    obtain ⟨part, hpart, rfl⟩ := List.mem_map.mp hp
    exact ⟨hgap, h part hpart⟩
  have hobj := readsAs_spaced hgap (parts.map (gap, ·)) hspaced
  rw [List.map_map, List.mapM_map] at hobj
  exact hobj

end Containers

section RoundTrip

mutual

/-- The spellings of the numbers of a value. -/
def tokens : Json → List (List UInt8)
  | num token => [token]
  | arr items => itemTokens items
  | obj members => memberTokens members
  | _ => []

def itemTokens : List Json → List (List UInt8)
  | [] => []
  | v :: vs => tokens v ++ itemTokens vs

def memberTokens : List (List UInt8 × Json) → List (List UInt8)
  | [] => []
  | (_, v) :: ms => tokens v ++ memberTokens ms

end

/-- Every number has a spelling that the reader takes as a whole. -/
def Readable (value : Json) : Prop := ∀ token ∈ tokens value, readNumber token = some (token, [])

theorem itemsText_eq_joined (items : List Json) : itemsText true items = joined [] (items.map text) := by
  have hlater : ∀ items : List Json, itemsText false items = (items.map text).flatMap fun text => 44 :: ([] ++ text) := by
    intro items
    induction items with
    | nil => rfl
    | cons v vs ih =>
      rw [itemsText, ih]
      rfl
  cases items with
  | nil => rfl
  | cons v vs =>
    rw [itemsText, hlater]
    rfl

def memberPart (member : List UInt8 × Json) : MemberPart := ⟨member.1, text member.2, some member.2⟩

theorem membersText_eq_joined (members : List (List UInt8 × Json)) :
    membersText true members = joined [] ((members.map memberPart).map (MemberPart.memberText [])) := by
  have hmember (k : List UInt8) (v : Json) (rest : List UInt8) :
      quoted k ++ 58 :: (text v ++ rest) = (memberPart (k, v)).memberText [] ++ rest := by
    rw [MemberPart.memberText, List.append_assoc]
    rfl
  have hlater : ∀ members : List (List UInt8 × Json), membersText false members =
      ((members.map memberPart).map (MemberPart.memberText [])).flatMap fun text => 44 :: ([] ++ text) := by
    intro members
    induction members with
    | nil => rfl
    | cons member ms ih =>
      obtain ⟨k, v⟩ := member
      rw [membersText, ih, hmember]
      rfl
  cases members with
  | nil => rfl
  | cons member ms =>
    obtain ⟨k, v⟩ := member
    rw [membersText, hlater, hmember]
    rfl

theorem mapM_member (members : List (List UInt8 × Json)) : (members.map memberPart).mapM MemberPart.member = some members := by
  induction members with
  | nil => rfl
  | cons member ms ih =>
    rw [List.map_cons, List.mapM_cons, ih]
    rfl

theorem mapM_item (items : List Json) : (items.map fun v => (text v, some v)).mapM Prod.snd = some items := by
  induction items with
  | nil => rfl
  | cons v vs ih =>
    rw [List.map_cons, List.mapM_cons, ih]
    rfl

theorem no_gap : ∀ c ∈ ([] : List UInt8), isBlank c = true := fun _ hc => absurd hc List.not_mem_nil

mutual

theorem readsAs_text : ∀ value : Json, Readable value → ReadsAs (text value) (some value)
  | .null, _ => readsAs_null
  | .bool b, _ => readsAs_bool b
  | .num token, h => readsAs_num (h token (List.mem_singleton.mpr rfl))
  | .str s, _ => readsAs_str s
  | .arr items, h => by
    have hitems : ∀ p ∈ items.map fun v => (text v, some v), ReadsAs p.1 p.2 := by
      intro p hp
      obtain ⟨v, hv, rfl⟩ := List.mem_map.mp hp
      exact readsAs_items items h v hv
    have harr := readsAs_arr no_gap _ hitems
    rw [List.map_map, mapM_item] at harr
    rw [text, itemsText_eq_joined]
    exact harr
  | .obj members, h => by
    have hmembers : ∀ p ∈ members.map memberPart, ReadsAs p.text p.value := by
      intro p hp
      obtain ⟨member, hm, rfl⟩ := List.mem_map.mp hp
      exact readsAs_members members h member hm
    have hobj := readsAs_obj no_gap _ hmembers
    rw [mapM_member] at hobj
    rw [text, membersText_eq_joined]
    exact hobj

theorem readsAs_items : ∀ items : List Json, (∀ token ∈ itemTokens items, readNumber token = some (token, [])) →
    ∀ v ∈ items, ReadsAs (text v) (some v)
  | [], _, _, hv => absurd hv List.not_mem_nil
  | first :: items, h, v, hv => by
    rcases List.mem_cons.mp hv with hfirst | hv
    · rw [hfirst]
      exact readsAs_text first fun token ht => h token (List.mem_append_left _ ht)
    · exact readsAs_items items (fun token ht => h token (List.mem_append_right _ ht)) v hv

theorem readsAs_members : ∀ members : List (List UInt8 × Json), (∀ token ∈ memberTokens members, readNumber token = some (token, [])) →
    ∀ member ∈ members, ReadsAs (text member.2) (some member.2)
  | [], _, _, hm => absurd hm List.not_mem_nil
  | (k, v) :: members, h, member, hm => by
    rcases List.mem_cons.mp hm with hfirst | hm
    · rw [hfirst]
      exact readsAs_text v fun token ht => h token (List.mem_append_left _ ht)
    · exact readsAs_members members (fun token ht => h token (List.mem_append_right _ ht)) member hm

end

/-- A value is read back from its text. -/
theorem readText_text {value : Json} (h : Readable value) : readText value.text = some value := (readsAs_text value h).readText

theorem readText_writeEvents {value : Json} (h : Readable value) : readText (writeEvents value.events) = some value := by
  rw [writeEvents_events, readText_text h]

end RoundTrip

end Json
