import Mathlib.Data.List.TakeWhile
import ModelServer.JsonText

/-! What holds of the steps of the reader holds of all that is read. -/

namespace Json

mutual

/-- The bytes of the strings and keys of a value. -/
def stringBytes : Json → List UInt8
  | str s => s
  | arr items => itemStringBytes items
  | obj members => memberStringBytes members
  | _ => []

def itemStringBytes : List Json → List UInt8
  | [] => []
  | v :: vs => stringBytes v ++ itemStringBytes vs

def memberStringBytes : List (List UInt8 × Json) → List UInt8
  | [] => []
  | (k, v) :: ms => k ++ (stringBytes v ++ memberStringBytes ms)

end

section Numbers

def isNumeric (c : UInt8) : Bool := isDigit c || [43, 45, 46, 69, 101].contains c

/-- A relation of a text, what is left of it, and the bytes of the strings between, where numbers leave nothing. -/
structure NumberTraversal (related : List UInt8 → List UInt8 → List UInt8 → Prop) : Prop where
  nil : ∀ text, related text text []
  append : ∀ {text middle rest kept kept'}, related text middle kept → related middle rest kept' → related text rest (kept ++ kept')
  numeric : ∀ used rest, (∀ c ∈ used, isNumeric c = true) → related (used ++ rest) rest []

variable {related : List UInt8 → List UInt8 → List UInt8 → Prop}

namespace NumberTraversal

variable (T : NumberTraversal related) {text token rest kept : List UInt8}
include T

theorem behind (h : related text rest kept) (used : List UInt8) (hused : ∀ c ∈ used, isNumeric c = true) :
    related (used ++ text) rest kept := T.append (T.numeric used text hused) h

theorem mark {c : UInt8} (h : related text rest kept) (hc : isNumeric c = true) : related (c :: text) rest kept :=
  T.behind h [c] fun d hd => by rw [List.mem_singleton.mp hd]; exact hc

theorem digits (h : readDigits text = some (token, rest)) : related text rest [] := by
  unfold readDigits at h
  split at h
  next => cases h
  next =>
    cases h
    have hdigits := T.numeric (text.takeWhile isDigit) (text.dropWhile isDigit) fun c hc => by
      rw [isNumeric, List.mem_takeWhile_imp hc, Bool.true_or]
    rw [List.takeWhile_append_dropWhile] at hdigits
    exact hdigits

theorem integer (h : readInteger text = some (token, rest)) : related text rest [] := by
  unfold readInteger at h
  split at h
  next =>
    cases h
    exact T.mark (T.nil rest) (by decide)
  next => exact T.digits h

theorem fraction (h : readFraction text = some (token, rest)) : related text rest [] := by
  unfold readFraction at h
  split at h
  next =>
    obtain ⟨⟨digits, left⟩, hread, heq⟩ := Option.map_eq_some_iff.mp h
    cases heq
    exact T.mark (T.digits hread) (by decide)
  next =>
    cases h
    exact T.nil text

theorem boundedDigits (start : List UInt8) {bound : Nat}
    (h : ((readDigits text).bind fun read => if digitsValue read.1 ≤ bound then some (start ++ read.1, read.2) else none) =
      some (token, rest)) : related text rest [] := by
  obtain ⟨⟨digits, left⟩, hread, heq⟩ := Option.bind_eq_some_iff.mp h
  dsimp only at heq
  split at heq
  next =>
    cases heq
    exact T.digits hread
  next => cases heq

theorem exponent {n : Nat} (h : readExponent n text = some (token, rest)) : related text rest [] := by
  unfold readExponent at h
  split at h
  next e text =>
    split at h
    next he =>
      rw [Bool.or_eq_true, decide_eq_true_iff, decide_eq_true_iff] at he
      have hmark : isNumeric e = true := by
        rcases he with rfl | rfl
        · decide
        · decide
      split at h
      next text =>
        obtain ⟨⟨digits, left⟩, hread, heq⟩ := Option.map_eq_some_iff.mp h
        cases heq
        exact T.mark (T.mark (T.digits hread) (by decide)) hmark
      next text => exact T.mark (T.mark (T.boundedDigits [e, 43] h) (by decide)) hmark
      next => exact T.mark (T.boundedDigits [e] h) hmark
    next =>
      cases h
      exact T.nil _
  next =>
    cases h
    exact T.nil _

theorem unsigned (h : readUnsigned text = some (token, rest)) : related text rest [] := by
  obtain ⟨⟨integer, left₁⟩, hinteger, h⟩ := Option.bind_eq_some_iff.mp h
  obtain ⟨⟨fraction, left₂⟩, hfraction, h⟩ := Option.bind_eq_some_iff.mp h
  obtain ⟨⟨exponent, left₃⟩, hexponent, h⟩ := Option.bind_eq_some_iff.mp h
  cases h
  exact T.append (T.append (T.integer hinteger) (T.fraction hfraction)) (T.exponent hexponent)

theorem number (h : readNumber text = some (token, rest)) : related text rest [] := by
  unfold readNumber at h
  split at h
  next text =>
    obtain ⟨⟨digits, left⟩, hread, heq⟩ := Option.map_eq_some_iff.mp h
    cases heq
    exact T.mark (T.unsigned hread) (by decide)
  next => exact T.unsigned h

end NumberTraversal

end Numbers

section Values

/-- Blanks, brackets, separators, quotes, and the letters of the literals. -/
def isSyntactic (c : UInt8) : Bool :=
  isBlank c || [34, 44, 58, 91, 93, 97, 101, 102, 108, 110, 114, 115, 116, 117, 123, 125].contains c

/-- A relation of a text, what is left of it, and the bytes of the strings between. -/
structure Traversal (related : List UInt8 → List UInt8 → List UInt8 → Prop) : Prop extends NumberTraversal related where
  syntactic : ∀ used rest, used.all isSyntactic = true → related (used ++ rest) rest []
  plain : ∀ c rest, ¬c < 32 → c ≠ 34 → c ≠ 92 → related (c :: rest) rest [c]
  escape : ∀ c d rest, unescaped c = some d → related (92 :: c :: rest) rest [d]
  unit : ∀ a b c d unit s rest, codeUnit a b c d = some unit → related (92 :: 117 :: a :: b :: c :: d :: rest) rest s

variable {related : List UInt8 → List UInt8 → List UInt8 → Prop}

namespace Traversal

variable (T : Traversal related)
include T

theorem behindSyntax {text rest kept : List UInt8} (h : related text rest kept) (used : List UInt8)
    (hused : used.all isSyntactic = true) : related (used ++ text) rest kept := T.append (T.syntactic used text hused) h

theorem blanks (text : List UInt8) : related text (skipBlanks text) [] := by
  have hblanks := T.syntactic (text.takeWhile isBlank) (text.dropWhile isBlank) (List.all_eq_true.mpr fun c hc => by
    rw [isSyntactic, List.mem_takeWhile_imp hc, Bool.true_or])
  rw [List.takeWhile_append_dropWhile] at hblanks
  exact hblanks

theorem chars {text s rest : List UInt8} (h : readChars text = some (s, rest)) : related text rest s := by
  induction text using readChars.induct generalizing s rest with
  | case1 => cases h
  | case2 text =>
    cases h
    exact T.syntactic [34] _ (by decide)
  | case3 a b c d text hcode =>
    rw [readChars, hcode] at h
    cases h
  | case4 a b c d text unit hcode hlow ih =>
    rw [readChars, hcode] at h
    dsimp only at h
    rw [if_pos hlow] at h
    obtain ⟨⟨s', rest'⟩, hread, heq⟩ := Option.map_eq_some_iff.mp h
    cases heq
    exact T.append (T.unit _ _ _ _ _ (utf8 unit) _ hcode) (ih hread)
  | case5 a b c d unit hcode hlow hhigh a' b' c' d' text hcode' =>
    rw [readChars, hcode] at h
    dsimp only at h
    rw [if_neg hlow, if_pos hhigh] at h
    split at h
    next heq =>
      cases heq
      rw [hcode'] at h
      cases h
    next => cases h
  | case6 a b c d unit hcode hlow hhigh a' b' c' d' text unit' hcode' hpair ih =>
    rw [readChars, hcode] at h
    dsimp only at h
    rw [if_neg hlow, if_pos hhigh] at h
    split at h
    next heq =>
      cases heq
      rw [hcode'] at h
      dsimp only at h
      rw [if_pos hpair] at h
      obtain ⟨⟨s', rest'⟩, hread, heq⟩ := Option.map_eq_some_iff.mp h
      obtain ⟨hstring, hrest⟩ := Prod.mk.inj heq
      rw [← hstring, ← hrest]
      have hlater := T.append (T.unit _ _ _ _ _ [] _ hcode') (ih hread)
      exact T.append (T.unit _ _ _ _ _ _ _ hcode) hlater
    next => cases h
  | case7 a b c d unit hcode hlow hhigh a' b' c' d' text unit' hcode' hpair =>
    rw [readChars, hcode] at h
    dsimp only at h
    rw [if_neg hlow, if_pos hhigh] at h
    split at h
    next heq =>
      cases heq
      rw [hcode'] at h
      dsimp only at h
      rw [if_neg hpair] at h
      cases h
    next => cases h
  | case8 a b c d text unit hcode hlow hhigh hnone =>
    rw [readChars, hcode] at h
    dsimp only at h
    rw [if_neg hlow, if_pos hhigh] at h
    split at h
    next => exact absurd rfl (hnone _ _ _ _ _)
    next => cases h
  | case9 a b c d text unit hcode hlow hhigh =>
    rw [readChars, hcode] at h
    dsimp only at h
    rw [if_neg hlow, if_neg hhigh] at h
    cases h
  | case10 c text hunit hescape =>
    rw [readChars, hescape] at h
    · cases h
    · exact hunit
  | case11 c text hunit d hescape ih =>
    rw [readChars, hescape] at h
    · obtain ⟨⟨s', rest'⟩, hread, heq⟩ := Option.map_eq_some_iff.mp h
      cases heq
      exact T.append (T.escape _ _ _ hescape) (ih hread)
    · exact hunit
  | case12 c text hquote hunit hescape hcontrol =>
    rw [readChars, if_pos hcontrol] at h
    · cases h
    · exact hquote
    · exact hunit
    · exact hescape
  | case13 c text hquote hunit hescape hcontrol ih =>
    rw [readChars, if_neg hcontrol] at h
    · obtain ⟨⟨s', rest'⟩, hread, heq⟩ := Option.map_eq_some_iff.mp h
      cases heq
      have hbackslash : c ≠ 92 := by
        rintro rfl
        cases text with
        | nil => cases hread
        | cons d text => exact hescape d text rfl rfl
      exact T.append (T.plain c text hcontrol hquote hbackslash) (ih hread)
    · exact hquote
    · exact hunit
    · exact hescape

end Traversal

mutual

theorem Traversal.overValue (T : Traversal related) : ∀ (fuel : Nat) {text rest : List UInt8} {value : Json}, readValue fuel text = some (value, rest) →
    related text rest (stringBytes value)
  | 0, _, _, _, h => by cases h
  | fuel + 1, text, rest, value, h => by
    rw [readValue.eq_def] at h
    dsimp only at h
    split at h
    next =>
      cases h
      exact T.syntactic [110, 117, 108, 108] _ (by decide)
    next =>
      cases h
      exact T.syntactic [116, 114, 117, 101] _ (by decide)
    next =>
      cases h
      exact T.syntactic [102, 97, 108, 115, 101] _ (by decide)
    next =>
      obtain ⟨⟨s, left⟩, hread, heq⟩ := Option.map_eq_some_iff.mp h
      cases heq
      exact T.behindSyntax (T.chars hread) [34] (by decide)
    next text =>
      have hblanks := T.behindSyntax (T.blanks text) [91] (by decide)
      split at h
      next heq =>
        cases h
        rw [heq] at hblanks
        exact T.append hblanks (T.syntactic [93] _ (by decide))
      next =>
        obtain ⟨⟨items, left⟩, hread, heq⟩ := Option.map_eq_some_iff.mp h
        cases heq
        exact T.append hblanks (T.overItems fuel hread)
    next text =>
      have hblanks := T.behindSyntax (T.blanks text) [123] (by decide)
      split at h
      next heq =>
        cases h
        rw [heq] at hblanks
        exact T.append hblanks (T.syntactic [125] _ (by decide))
      next =>
        obtain ⟨⟨members, left⟩, hread, heq⟩ := Option.map_eq_some_iff.mp h
        cases heq
        exact T.append hblanks (T.overMembers fuel hread)
    next =>
      obtain ⟨⟨token, left⟩, hread, heq⟩ := Option.map_eq_some_iff.mp h
      cases heq
      exact T.number hread

theorem Traversal.overItems (T : Traversal related) : ∀ (fuel : Nat) {text rest : List UInt8} {items : List Json}, readItems fuel text = some (items, rest) →
    related text rest (itemStringBytes items)
  | 0, _, _, _, h => by cases h
  | fuel + 1, text, rest, items, h => by
    rw [readItems] at h
    split at h
    next => cases h
    next value left hvalue =>
      have hblanks := T.append (T.overValue fuel hvalue) (T.blanks left)
      rw [List.append_nil] at hblanks
      split at h
      next after heq =>
        rw [heq] at hblanks
        obtain ⟨⟨later, left⟩, hread, heq⟩ := Option.map_eq_some_iff.mp h
        cases heq
        have hcomma := T.behindSyntax (T.blanks after) [44] (by decide)
        exact T.append hblanks (T.append hcomma (T.overItems fuel hread))
      next heq =>
        cases h
        rw [heq] at hblanks
        exact T.append hblanks (T.syntactic [93] _ (by decide))
      next => cases h

theorem Traversal.overMembers (T : Traversal related) : ∀ (fuel : Nat) {text rest : List UInt8} {members : List (List UInt8 × Json)},
    readMembers fuel text = some (members, rest) → related text rest (memberStringBytes members)
  | 0, _, _, _, h => by cases h
  | fuel + 1, text, rest, members, h => by
    rw [readMembers.eq_def] at h
    dsimp only at h
    split at h
    next text =>
      split at h
      next => cases h
      next key left hkey =>
        have hchars := T.append (T.behindSyntax (T.chars hkey) [34] (by decide)) (T.blanks left)
        rw [List.append_nil] at hchars
        split at h
        next behind heq =>
          rw [heq] at hchars
          split at h
          next => cases h
          next value left hvalue =>
            have hcolon := T.behindSyntax (T.blanks behind) [58] (by decide)
            have hmember := T.append hchars (T.append (T.append hcolon (T.overValue fuel hvalue)) (T.blanks left))
            rw [List.nil_append, List.append_nil] at hmember
            split at h
            next after heq =>
              rw [heq] at hmember
              obtain ⟨⟨later, left⟩, hread, heq⟩ := Option.map_eq_some_iff.mp h
              cases heq
              have hcomma := T.behindSyntax (T.blanks after) [44] (by decide)
              have hall := T.append hmember (T.append hcomma (T.overMembers fuel hread))
              rw [List.append_assoc] at hall
              exact hall
            next heq =>
              cases h
              rw [heq] at hmember
              have hall := T.append hmember (T.syntactic [125] _ (by decide))
              rw [List.append_assoc] at hall
              exact hall
            next => cases h
        next => cases h
    next => cases h

end

theorem Traversal.overText (T : Traversal related) {text : List UInt8} {value : Json} (h : readText text = some value) : related text [] (stringBytes value) := by
  unfold readText at h
  split at h
  next value' rest hread =>
    split at h
    next hblank =>
      cases h
      have hblanks : skipBlanks rest = [] := List.isEmpty_iff.mp hblank
      have hend := T.blanks rest
      rw [hblanks] at hend
      have hall := T.append (T.append (T.blanks text) (T.overValue _ hread)) hend
      rw [List.append_nil] at hall
      exact hall
    next => cases h
  next => cases h

end Values

end Json
