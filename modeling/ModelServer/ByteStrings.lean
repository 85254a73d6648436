import ModelServer.Occurrence

namespace ModelServer

/-- A `char`. -/
abbrev Byte := UInt8

/-- A `std::string`. -/
abbrev Str := List Byte

instance : LawfulBEq Str := inferInstance

/-- The bytes of an ASCII literal. -/
def bytes (s : String) : Str := s.toList.map Char.toUInt8

/-- A literal unifies with `String.ofList` of its characters without being decoded. -/
theorem bytes_eq_map {s : String} {chars : List Char} (h : s = String.ofList chars) :
    bytes s = chars.map Char.toUInt8 := by
  rw [h, bytes, String.toList_ofList]

def char (c : Char) : Byte := c.toUInt8

/-- `text.find(tag, pos)` for a non-empty tag; `none` is `npos`. -/
def find (text tag : Str) (pos : Nat) : Option Nat :=
  (Occurrence.indexOf? tag (text.drop pos)).map (pos + ·)

/-- `text.rfind(tag)` for a non-empty tag. -/
def rfind (text tag : Str) : Option Nat :=
  ((List.range text.length).filter fun i => tag.isPrefixOf (text.drop i)).getLast?

/-- `a < b` on positions, where `npos` is above every position. -/
def posLt : Option Nat → Option Nat → Bool
  | some a, some b => a < b
  | some _, none => true
  | none, _ => false

/-- `std::min` on positions. -/
def posMin (a b : Option Nat) : Option Nat := if posLt b a then b else a

def substr (text : Str) (pos len : Nat) : Str := (text.drop pos).take len

def isspace (c : Byte) : Bool := c == 32 || (9 ≤ c && c ≤ 13)

def isdigit (c : Byte) : Bool := 48 ≤ c && c ≤ 57

def isalnum (c : Byte) : Bool :=
  isdigit c || (65 ≤ c && c ≤ 90) || (97 ≤ c && c ≤ 122)

def ltrim (str : Str) : Str := str.dropWhile isspace

def rtrim (str : Str) : Str := (str.reverse.dropWhile isspace).reverse

def trim (str : Str) : Str := rtrim (ltrim str)

/-- The part of a string that `c_str()` shows. -/
def cStr (str : Str) : Str := str.takeWhile (· ≠ 0)

/-- A suffix of `lhs` of some length is the prefix of `rhs` of that length. -/
def stringsOverlap (lhs rhs : Str) : Bool :=
  if lhs.isEmpty && rhs.isEmpty then true
  else (List.range (min lhs.length rhs.length)).any fun len =>
    lhs.drop (lhs.length - (len + 1)) == rhs.take (len + 1)

def trimNewline (str : Str) : Str :=
  let str := if str.getLast? = some (char '\n') then str.dropLast else str
  if str.head? = some (char '\n') then str.tail else str

def trimSurroundingQuotes (str : Str) : Str :=
  match str with
  | quote :: rest =>
    if rest.isEmpty then str
    else if (quote ≠ char '"' && quote ≠ char '\'') || rest.getLast? ≠ some quote then str
    else if Occurrence.indexOf? [quote] rest ≠ some (rest.length - 1) then str
    else rest.dropLast
  | [] => str

/-- Occurrences of `tag` are erased from left to right; what an erasure joins is not looked at again. -/
def eraseTag (tag : Str) : Nat → Str → Str
  | 0, content => content
  | budget + 1, content =>
    match Occurrence.indexOf? tag content with
    | none => content
    | some pos => content.take pos ++ eraseTag tag budget (content.drop (pos + tag.length))

/-- Every erasure removes a byte, so the length is budget enough. -/
def eraseAll (tag content : Str) : Str := eraseTag tag content.length content

structure TagMatch where
  position : Nat
  length : Nat
deriving DecidableEq

/-- The tag that begins first; of two at one position the longer. -/
def findEarliestTag (text : Str) (tags : List Str) : Option TagMatch :=
  tags.foldl (fun earliest tag =>
    if tag.isEmpty then earliest
    else
      match Occurrence.indexOf? tag text, earliest with
      | none, _ => earliest
      | some position, none => some ⟨position, tag.length⟩
      | some position, some best =>
        if position < best.position || (position == best.position && best.length < tag.length) then
          some ⟨position, tag.length⟩
        else earliest) none

theorem posLt_asymm {a b : Option Nat} (h : posLt a b = true) : posLt b a = false := by
  cases a <;> cases b <;> simp_all [posLt]
  omega

theorem posLt_posMin {k : Nat} {a b : Option Nat} (ha : posLt (some k) a = true)
    (hb : posLt (some k) b = true) : posLt (some k) (posMin a b) = true := by
  unfold posMin
  split
  · exact hb
  · exact ha

theorem posMin_left {k : Nat} {b : Option Nat} (h : posLt (some k) b = true) :
    posMin (some k) b = some k := by
  simp [posMin, posLt_asymm h]

theorem posMin_right {k : Nat} {a : Option Nat} (h : posLt (some k) a = true) :
    posMin a (some k) = some k := by
  simp [posMin, h]

theorem find_eq_some_iff {text tag : Str} {pos p : Nat} (ht : tag ≠ []) :
    find text tag pos = some p ↔ pos ≤ p ∧ Occurrence.At tag text p ∧
      ∀ j, pos ≤ j → j < p → ¬ Occurrence.At tag text j := by
  simp only [find, Option.map_eq_some_iff, Occurrence.indexOf?_eq_some_iff ht]
  constructor
  · rintro ⟨i, ⟨hat, hmin⟩, rfl⟩
    refine ⟨by omega, Occurrence.at_drop.mp hat, fun j hj hlt hh => ?_⟩
    obtain ⟨k, rfl⟩ := Nat.exists_eq_add_of_le hj
    exact hmin k (by omega) (Occurrence.at_drop.mpr hh)
  · rintro ⟨hle, hat, hmin⟩
    obtain ⟨i, rfl⟩ := Nat.exists_eq_add_of_le hle
    exact ⟨i, ⟨Occurrence.at_drop.mpr hat,
      fun j hj hh => hmin (pos + j) (by omega) (by omega) (Occurrence.at_drop.mp hh)⟩, rfl⟩

theorem find_eq_none_iff {text tag : Str} {pos : Nat} (ht : tag ≠ []) :
    find text tag pos = none ↔ ∀ j, pos ≤ j → ¬ Occurrence.At tag text j := by
  simp only [find, Option.map_eq_none_iff, Occurrence.indexOf?_eq_none_iff ht]
  constructor
  · intro hn j hj hh
    obtain ⟨k, rfl⟩ := Nat.exists_eq_add_of_le hj
    exact hn k (Occurrence.at_drop.mpr hh)
  · exact fun hn i hh => hn (pos + i) (by omega) (Occurrence.at_drop.mp hh)

theorem find_add_length_le {text tag : Str} {pos p : Nat} (ht : tag ≠ [])
    (h : find text tag pos = some p) : p + tag.length ≤ text.length :=
  ((find_eq_some_iff ht).mp h).2.1.length_le ht

theorem find_bounds {text tag : Str} {pos p : Nat} (ht : tag ≠ []) (h : find text tag pos = some p) :
    pos ≤ p ∧ p + tag.length ≤ text.length :=
  ⟨((find_eq_some_iff ht).mp h).1, find_add_length_le ht h⟩

theorem findEarliestTag_single {text tag : Str} (ht : tag ≠ []) :
    findEarliestTag text [tag] = (Occurrence.indexOf? tag text).map (⟨·, tag.length⟩) := by
  have he : tag.isEmpty = false := by simpa using ht
  simp only [findEarliestTag, List.foldl_cons, List.foldl_nil, he, Bool.false_eq_true, if_false]
  cases Occurrence.indexOf? tag text <;> rfl

/-- What is found is one of the tags. -/
theorem findEarliestTag_mem {text : Str} {tags : List Str} {m : TagMatch} (h : findEarliestTag text tags = some m) :
    ∃ tag ∈ tags, tag ≠ [] ∧ m.length = tag.length ∧ Occurrence.indexOf? tag text = some m.position := by
  induction tags using List.reverseRecOn generalizing m with
  | nil => cases h
  | append_singleton tags tag ih =>
    rw [findEarliestTag, List.foldl_append] at h
    have hbefore : ∀ best, findEarliestTag text tags = some best → ∃ other ∈ tags ++ [tag], other ≠ [] ∧
        best.length = other.length ∧ Occurrence.indexOf? other text = some best.position := by
      intro best hbest
      obtain ⟨other, hm, hother⟩ := ih hbest
      exact ⟨other, List.mem_append_left _ hm, hother⟩
    have hlast : tag ∈ tags ++ [tag] := List.mem_append_right _ (List.mem_singleton_self tag)
    simp only [List.foldl_cons, List.foldl_nil] at h
    split at h
    next => exact hbefore m h
    next htag =>
      have hne : tag ≠ [] := by simpa using htag
      split at h
      next => exact hbefore m h
      next position hposition _ =>
        cases h
        exact ⟨tag, hlast, hne, rfl, hposition⟩
      next position best hposition _ =>
        split at h
        next =>
          cases h
          exact ⟨tag, hlast, hne, rfl, hposition⟩
        next => exact hbefore m h

/-- A tag that is found is not empty, and stands in the text. -/
theorem findEarliestTag_bounds {text : Str} {tags : List Str} {m : TagMatch} (h : findEarliestTag text tags = some m) :
    0 < m.length ∧ m.position + m.length ≤ text.length := by
  obtain ⟨tag, _, hne, hlength, hindex⟩ := findEarliestTag_mem h
  rw [hlength]
  exact ⟨List.length_pos_iff.mpr hne, ((Occurrence.indexOf?_eq_some_iff hne).mp hindex).1.length_le hne⟩

theorem stringsOverlap_iff {lhs rhs : Str} (hr : rhs ≠ []) :
    stringsOverlap lhs rhs = true ↔
      ∃ n, 0 < n ∧ n ≤ lhs.length ∧ n ≤ rhs.length ∧ lhs.drop (lhs.length - n) = rhs.take n := by
  have he : (lhs.isEmpty && rhs.isEmpty) = false := by cases rhs <;> simp_all
  simp only [stringsOverlap, he, Bool.false_eq_true, if_false, List.any_eq_true, List.mem_range,
    beq_iff_eq]
  constructor
  · rintro ⟨n, hn, h⟩
    exact ⟨n + 1, by omega, by omega, by omega, h⟩
  · rintro ⟨n, hpos, hl, hrl, h⟩
    exact ⟨n - 1, by omega, by simpa only [show n - 1 + 1 = n by omega] using h⟩

theorem drop_last_append {front back : Str} {n : Nat} (h : n ≤ back.length) :
    (front ++ back).drop ((front ++ back).length - n) = back.drop (back.length - n) := by
  have hn : (front ++ back).length - n = front.length + (back.length - n) := by
    simp only [List.length_append]
    omega
  rw [hn, ← List.drop_drop, List.drop_left]

/-- Text that does not end in the beginning of a tag may be forgotten. -/
theorem stringsOverlap_append {front back tag : Str} (ht : tag ≠ [])
    (hf : stringsOverlap front tag = false) :
    stringsOverlap (front ++ back) tag = stringsOverlap back tag := by
  rw [Bool.eq_iff_iff, stringsOverlap_iff ht, stringsOverlap_iff ht]
  constructor
  · rintro ⟨n, hpos, hl, htl, h⟩
    by_cases hb : n ≤ back.length
    · exact ⟨n, hpos, hb, htl, (drop_last_append hb).symm.trans h⟩
    · exfalso
      have hover : stringsOverlap front tag = true := by
        rw [List.length_append] at hl h
        refine (stringsOverlap_iff ht).mpr ⟨n - back.length, by omega, by omega, by omega, ?_⟩
        have hc := congrArg (List.take (n - back.length)) h
        rw [List.take_take, Nat.min_eq_left (by omega), List.drop_append_of_le_length (by omega),
          List.take_append_of_le_length (by simp only [List.length_drop]; omega),
          List.take_of_length_le (by simp only [List.length_drop]; omega)] at hc
        rw [← hc]
        congr 1
        omega
      rw [hf] at hover
      cases hover
  · rintro ⟨n, hpos, hl, htl, h⟩
    exact ⟨n, hpos, by simp only [List.length_append]; omega, htl, (drop_last_append hl).trans h⟩

/-- No tag begins in text that has none and does not end in the beginning of one. -/
theorem length_le_of_clear {front back tag : Str} (ht : tag ≠ []) (hn : ¬ tag <:+: front)
    (hf : stringsOverlap front tag = false) {i : Nat} (hat : Occurrence.At tag (front ++ back) i) :
    front.length ≤ i := by
  have hlen := hat.length_le ht
  rw [List.length_append] at hlen
  by_contra hback
  by_cases hfront : i + tag.length ≤ front.length
  · exact hn (Occurrence.infix_iff_at.mpr ⟨i, hat.of_append hfront⟩)
  · have hover : stringsOverlap front tag = true := by
      refine (stringsOverlap_iff ht).mpr ⟨front.length - i, by omega, by omega, by omega, ?_⟩
      obtain ⟨rest, hrest⟩ := hat
      rw [List.drop_append_of_le_length (by omega)] at hrest
      have htake := congrArg (List.take (front.length - i)) hrest
      rw [List.take_append_of_le_length (by omega), List.take_left' (by simp)] at htake
      rw [htake, show front.length - (front.length - i) = i by omega]
    rw [hf] at hover
    cases hover

theorem infix_append_of_clear {front back tag : Str} (ht : tag ≠ []) (hn : ¬ tag <:+: front)
    (hf : stringsOverlap front tag = false) : tag <:+: front ++ back ↔ tag <:+: back := by
  constructor
  · intro h
    obtain ⟨i, hat⟩ := Occurrence.infix_iff_at.mp h
    obtain ⟨k, rfl⟩ := Nat.exists_eq_add_of_le (length_le_of_clear ht hn hf hat)
    exact Occurrence.infix_iff_at.mpr ⟨k, Occurrence.at_append_left.mp hat⟩
  · intro h
    exact h.trans (List.suffix_append _ _).isInfix

/-- The last tag of a text that ends in one. -/
theorem rfind_append {text tag : Str} (ht : tag ≠ []) : rfind (text ++ tag) tag = some text.length := by
  have hpos := List.length_pos_iff.mpr ht
  have hrange : List.range (text ++ tag).length =
      List.range text.length ++ text.length :: List.range' (text.length + 1) (tag.length - 1) := by
    rw [List.range_eq_range', List.range_eq_range', List.length_append,
      show text.length + tag.length = text.length + (tag.length - 1 + 1) by omega,
      ← List.range'_append_1, List.range'_succ, Nat.zero_add]
  have hlater : (List.range' (text.length + 1) (tag.length - 1)).filter
      (fun i => tag.isPrefixOf ((text ++ tag).drop i)) = [] := by
    rw [List.filter_eq_nil_iff]
    intro i hi hp
    have hle := (List.isPrefixOf_iff_prefix.mp hp).length_le
    simp only [List.mem_range'_1, List.length_drop, List.length_append] at hi hle
    omega
  have hhere : tag.isPrefixOf ((text ++ tag).drop text.length) = true := by simp
  rw [rfind, hrange, List.filter_append, List.filter_cons, if_pos hhere, hlater,
    List.getLast?_append, List.getLast?_singleton, Option.some_or]

theorem rfind_of_none {text tag : Str} (hn : ¬ tag <:+: text) : rfind text tag = none := by
  have hnil : (List.range text.length).filter (fun i => tag.isPrefixOf (text.drop i)) = [] := by
    rw [List.filter_eq_nil_iff]
    intro i _ hp
    exact hn (Occurrence.infix_iff_at.mpr ⟨i, List.isPrefixOf_iff_prefix.mp hp⟩)
  rw [rfind, hnil, List.getLast?_nil]

theorem find_of_none {text tag : Str} (ht : tag ≠ []) (hn : ¬ tag <:+: text) :
    find text tag 0 = none := by
  refine (find_eq_none_iff ht).mpr ?_
  intro i _ hat
  exact hn (Occurrence.infix_iff_at.mpr ⟨i, hat⟩)

end ModelServer
