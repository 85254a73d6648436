import Mathlib.Data.List.TakeWhile
import ModelServer.StructuredText

namespace ModelServer

section Lookahead

open SpecialChars

/-- A quote is judged the same once a character is received behind it that is not whitespace. -/
theorem apostrophe_append {rest : Str} (h : ∃ c ∈ rest, isspace c = false) (d : SpecialChars) (prev : Option Byte) (x : Str) :
    d.apostrophe prev (rest ++ x) = d.apostrophe prev rest := by
  have hrest : rest ≠ [] := by
    obtain ⟨c, hc, -⟩ := h
    exact List.ne_nil_of_mem hc
  have hvisible : rest.dropWhile isspace ≠ [] := by
    intro hnil
    obtain ⟨c, hc, hspace⟩ := h
    rw [List.dropWhile_eq_nil_iff.mp hnil c hc] at hspace
    cases hspace
  have hbehind : ((rest ++ x).dropWhile isspace).head? = (rest.dropWhile isspace).head? := by
    rw [List.dropWhile_append, if_neg (by simpa using hvisible)]
    exact List.head?_append_of_ne_nil _ hvisible
  rw [apostrophe, apostrophe, hbehind, List.head?_append_of_ne_nil _ hrest]

theorem step_append {rest : Str} (h : ∃ c ∈ rest, isspace c = false) (d : SpecialChars) (prev : Option Byte) (c : Byte) (x : Str) :
    d.step prev c (rest ++ x) = d.step prev c rest := by
  rw [step, step, apostrophe_append h]

end Lookahead

section Search

open SpecialChars

variable {target : Str}

/-- What is found stands there. -/
theorem scan_at {d : SpecialChars} {prev : Option Byte} {text : Str} {k : Nat} (h : scan target d prev text = some k) :
    target <+: text.drop k := by
  induction text generalizing d prev k with
  | nil => cases h
  | cons c rest ih =>
    rw [scan] at h
    split at h
    next hhere =>
      cases h
      rw [Bool.and_eq_true] at hhere
      exact List.isPrefixOf_iff_prefix.mp hhere.2
    next =>
      obtain ⟨j, hj, rfl⟩ := Option.map_eq_some_iff.mp h
      exact ih hj

/-- A target with a visible character is not found in whitespace, whatever the counters are. -/
theorem not_prefix_of_blank (hvisible : ∃ c ∈ target, isspace c = false) {rest : Str} (hblank : ∀ c ∈ rest, isspace c = true) (k : Nat) :
    ¬target <+: rest.drop k := by
  intro hat
  obtain ⟨c, hc, hspace⟩ := hvisible
  rw [hblank c (List.mem_of_mem_drop (hat.subset hc))] at hspace
  cases hspace

theorem length_of_prefix_drop (hne : target ≠ []) {text : Str} {k : Nat} (h : target <+: text.drop k) :
    k + target.length ≤ text.length := Occurrence.At.length_le hne h

/-- The search in a text finds what the search in a longer text finds within it. Where the counters come to differ,
at a quote with nothing but whitespace behind it, nothing more is found in the text. -/
theorem scan_append_iff (hvisible : ∃ c ∈ target, isspace c = false) (d : SpecialChars) (prev : Option Byte) (text x : Str) (k : Nat) :
    scan target d prev text = some k ↔ scan target d prev (text ++ x) = some k ∧ k + target.length ≤ text.length := by
  have hne : target ≠ [] := by
    obtain ⟨c, hc, -⟩ := hvisible
    exact List.ne_nil_of_mem hc
  have hpos := List.length_pos_iff.mpr hne
  induction text generalizing d prev k with
  | nil =>
    constructor
    · intro h
      cases h
    · rintro ⟨-, hle⟩
      rw [List.length_nil] at hle
      omega
  | cons c rest ih =>
    rw [List.cons_append, scan, scan]
    by_cases hhere : (d.outside && target.isPrefixOf (c :: rest)) = true
    · have hbegins := List.isPrefixOf_iff_prefix.mp (Bool.and_eq_true_iff.mp hhere).2
      have hlater : (d.outside && target.isPrefixOf (c :: (rest ++ x))) = true := by
        refine Bool.and_eq_true_iff.mpr ⟨(Bool.and_eq_true_iff.mp hhere).1, ?_⟩
        exact List.isPrefixOf_iff_prefix.mpr (hbegins.trans (List.prefix_append (c :: rest) x))
      rw [if_pos hhere, if_pos hlater]
      refine ⟨fun h => ⟨h, ?_⟩, And.left⟩
      cases h
      rw [Nat.zero_add]
      exact hbegins.length_le
    rw [if_neg hhere]
    by_cases hlater : (d.outside && target.isPrefixOf (c :: (rest ++ x))) = true
    · -- found only with the text that comes later: too long for what has been received
      have hshort : (c :: rest).length < target.length := by
        by_contra hlong
        have hbegins := List.isPrefixOf_iff_prefix.mp (Bool.and_eq_true_iff.mp hlater).2
        refine hhere (Bool.and_eq_true_iff.mpr ⟨(Bool.and_eq_true_iff.mp hlater).1, List.isPrefixOf_iff_prefix.mpr ?_⟩)
        exact List.prefix_of_prefix_length_le hbegins (List.prefix_append (c :: rest) x) (by omega)
      rw [if_pos hlater]
      constructor
      · intro h
        obtain ⟨j, hj, rfl⟩ := Option.map_eq_some_iff.mp h
        have hle := length_of_prefix_drop hne (scan_at hj)
        rw [List.length_cons] at hshort
        omega
      · rintro ⟨-, hle⟩
        omega
    rw [if_neg hlater]
    have hshift : ∀ found : Option Nat, found.map (· + 1) = some k ↔ ∃ j, found = some j ∧ j + 1 = k := fun _ => Option.map_eq_some_iff
    rw [hshift, hshift, List.length_cons]
    by_cases hrest : ∃ c ∈ rest, isspace c = false
    · rw [step_append hrest]
      constructor
      · rintro ⟨j, hj, rfl⟩
        obtain ⟨hsame, hle⟩ := (ih _ _ j).mp hj
        exact ⟨⟨j, hsame, rfl⟩, by omega⟩
      · rintro ⟨⟨j, hj, rfl⟩, hle⟩
        exact ⟨j, (ih _ _ j).mpr ⟨hj, by omega⟩, rfl⟩
    · have hblank : ∀ c ∈ rest, isspace c = true := fun c hc => by
        by_contra hspace
        exact hrest ⟨c, hc, Bool.not_eq_true _ ▸ hspace⟩
      constructor
      · rintro ⟨j, hj, -⟩
        exact absurd (scan_at hj) (not_prefix_of_blank hvisible hblank j)
      · rintro ⟨⟨j, hj, rfl⟩, hle⟩
        have hat := scan_at hj
        rw [List.drop_append_of_le_length (by omega)] at hat
        refine absurd (List.prefix_of_prefix_length_le hat (List.prefix_append _ _) ?_) (not_prefix_of_blank hvisible hblank j)
        rw [List.length_drop]
        omega

/-- A delimiter that is found in a part of the text is never revised by later text. -/
theorem findInStringRespectingSpecialChars_append_iff (str x target : Str) (startPos pos : Nat)
    (hvisible : ∃ c ∈ target, isspace c = false) :
    findInStringRespectingSpecialChars str target startPos = some pos ↔
      findInStringRespectingSpecialChars (str ++ x) target startPos = some pos ∧ pos + target.length ≤ str.length := by
  have hne : target ≠ [] := by
    obtain ⟨c, hc, -⟩ := hvisible
    exact List.ne_nil_of_mem hc
  have hpos := List.length_pos_iff.mpr hne
  rcases Nat.lt_or_ge str.length startPos with hbeyond | hle
  · constructor
    · intro h
      have hbounds := findInString_bounds h
      omega
    · rintro ⟨h, hlength⟩
      have hbounds := findInString_bounds h
      omega
  · have hprev : (if startPos = 0 then none else (str ++ x)[startPos - 1]?) = if startPos = 0 then none else str[startPos - 1]? := by
      split
      next => rfl
      next hstart => rw [List.getElem?_append_left (by omega)]
    rw [findInStringRespectingSpecialChars, findInStringRespectingSpecialChars, hprev, List.drop_append_of_le_length hle,
      Option.map_eq_some_iff, Option.map_eq_some_iff]
    constructor
    · rintro ⟨k, hk, rfl⟩
      obtain ⟨hsame, hlength⟩ := (scan_append_iff hvisible _ _ _ x k).mp hk
      rw [List.length_drop] at hlength
      exact ⟨⟨k, hsame, rfl⟩, by omega⟩
    · rintro ⟨⟨k, hk, rfl⟩, hlength⟩
      refine ⟨k, (scan_append_iff hvisible _ _ _ x k).mpr ⟨hk, ?_⟩, rfl⟩
      rw [List.length_drop]
      omega

/-- The separator of two arguments, found before a quote that more text keeps open. -/
theorem findInStringRespectingSpecialChars_append_separator :
    findInStringRespectingSpecialChars (bytes "a='x', b='y' " ++ bytes "z'") (bytes ", ") 0 = some 5 ∧
      findInStringRespectingSpecialChars (bytes "a='x', b='y' ") (bytes ", ") 0 = some 5 := by
  have hfound : findInStringRespectingSpecialChars (bytes "a='x', b='y' " ++ bytes "z'") (bytes ", ") 0 = some 5 := by decide
  refine ⟨hfound, ?_⟩
  exact (findInStringRespectingSpecialChars_append_iff _ (bytes "z'") _ 0 5 ⟨char ',', by decide, by decide⟩).mpr ⟨hfound, by decide⟩

end Search

end ModelServer
