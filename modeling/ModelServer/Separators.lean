import ModelServer.Occurrence

namespace Separators

variable {α : Type*}

/-- The text of components: each but the first stands behind a separator. -/
def joined (sep : α) (first : List α) (rest : List (List α)) : List α := first ++ rest.flatMap (sep :: ·)

variable {sep : α} {first last word tail text : List α} {rest : List (List α)}

theorem joined_cons (first component : List α) (rest : List (List α)) :
    joined sep first (component :: rest) = first ++ sep :: joined sep component rest := by
  simp [joined]

theorem joined_snoc (first : List α) (rest : List (List α)) (last : List α) :
    joined sep first (rest ++ [last]) = joined sep first rest ++ sep :: last := by
  simp [joined]

theorem exists_joined [DecidableEq α] (sep : α) (text : List α) :
    ∃ first rest, joined sep first rest = text ∧ sep ∉ first ∧ ∀ component ∈ rest, sep ∉ component := by
  induction text with
  | nil => exact ⟨[], [], rfl, by simp, by simp⟩
  | cons x text ih =>
    obtain ⟨first, rest, htext, hfirst, hrest⟩ := ih
    by_cases hx : x = sep
    · refine ⟨[], first :: rest, ?_, by simp, ?_⟩
      · rw [joined_cons, htext, hx, List.nil_append]
      · intro component hcomponent
        rcases List.mem_cons.mp hcomponent with heq | hmem
        · exact heq ▸ hfirst
        · exact hrest component hmem
    · refine ⟨x :: first, rest, ?_, ?_, hrest⟩
      · rw [← htext, joined, joined, List.cons_append]
      · intro hmem
        rcases List.mem_cons.mp hmem with heq | hmem
        · exact hx heq.symm
        · exact hfirst hmem

theorem splitOn_joined [DecidableEq α] (hfirst : sep ∉ first) (hrest : ∀ component ∈ rest, sep ∉ component) :
    (joined sep first rest).splitOn sep = first :: rest := by
  induction rest generalizing first with
  | nil =>
    simp only [joined, List.flatMap_nil, List.append_nil]
    exact List.splitOn_eq_singleton hfirst
  | cons component rest ih =>
    rw [joined_cons, List.splitOn_append_cons_self_of_not_mem hfirst]
    exact congrArg _ (ih (hrest component (by simp)) fun other hother => hrest other (by simp [hother]))

/-- A word without separators that begins a text begins its first component. -/
theorem prefix_joined (hword : sep ∉ word) : word <+: joined sep first rest ↔ word <+: first := by
  constructor
  · intro h
    rcases List.prefix_or_prefix_of_prefix h (List.prefix_append first _) with hp | hp
    · exact hp
    · obtain ⟨more, hmore⟩ := hp
      cases more with
      | nil => exact ⟨[], by simpa using hmore.symm⟩
      | cons x more =>
        cases rest with
        | nil =>
          have hlen := h.length_le
          rw [← hmore] at hlen
          simp only [joined, List.flatMap_nil, List.length_append, List.length_cons, List.length_nil] at hlen
          omega
        | cons component rest =>
          rw [joined_cons, ← hmore, List.prefix_append_right_inj, List.cons_prefix_cons] at h
          refine absurd ?_ hword
          rw [← hmore, ← h.1]
          simp
  · exact fun h => h.trans (List.prefix_append _ _)

/-- A word that a separator follows begins a text exactly when it is its first component, and not the last. -/
theorem prefix_sep_joined (hword : sep ∉ word) (hfirst : sep ∉ first) :
    word ++ [sep] <+: joined sep first rest ↔ word = first ∧ rest ≠ [] := by
  constructor
  · intro h
    have hp := (prefix_joined hword).mp ((List.prefix_append word [sep]).trans h)
    obtain ⟨more, hmore⟩ := hp
    rw [joined, ← hmore, List.append_assoc, List.prefix_append_right_inj] at h
    cases more with
    | nil =>
      refine ⟨by simpa using hmore, ?_⟩
      intro hnil
      simp [hnil] at h
    | cons x more =>
      rw [List.cons_append, List.cons_prefix_cons] at h
      refine absurd ?_ hfirst
      rw [← hmore, h.1]
      simp
  · intro h
    obtain ⟨heq, hne⟩ := h
    cases rest with
    | nil => exact absurd rfl hne
    | cons component rest =>
      rw [joined_cons, heq, List.prefix_append_right_inj, List.cons_prefix_cons]
      exact ⟨rfl, List.nil_prefix⟩

theorem infix_append_of_notMem (h : sep ∉ first) : sep :: word <:+: first ++ text ↔ sep :: word <:+: text := by
  induction first with
  | nil => rfl
  | cons x first ih =>
    rw [List.cons_append, List.infix_cons_iff, ih fun hmem => h (by simp [hmem]), List.cons_prefix_cons]
    constructor
    · intro hor
      rcases hor with hhead | hin
      · exact absurd (by simp [hhead.1]) h
      · exact hin
    · exact Or.inr

/-- What stands behind a separator of a text begins a component, with all that follows it. -/
theorem infix_joined (hfirst : sep ∉ first) (hrest : ∀ component ∈ rest, sep ∉ component) :
    sep :: word <:+: joined sep first rest ↔
      ∃ before component after, rest = before ++ component :: after ∧ word <+: joined sep component after := by
  induction rest generalizing first with
  | nil =>
    rw [joined, infix_append_of_notMem hfirst]
    simp
  | cons component rest ih =>
    have hcomponent : sep ∉ component := hrest component (by simp)
    rw [joined_cons, infix_append_of_notMem hfirst, List.infix_cons_iff, List.cons_prefix_cons,
      ih hcomponent fun other hother => hrest other (by simp [hother])]
    constructor
    · intro hor
      rcases hor with hhead | hlater
      · exact ⟨[], component, rest, rfl, hhead.2⟩
      · obtain ⟨before, other, after, heq, hprefix⟩ := hlater
        exact ⟨component :: before, other, after, by rw [heq, List.cons_append], hprefix⟩
    · intro h
      obtain ⟨before, other, after, heq, hprefix⟩ := h
      cases before with
      | nil =>
        cases heq
        exact .inl ⟨rfl, hprefix⟩
      | cons x before =>
        obtain ⟨rfl, rfl⟩ := List.cons_eq_cons.mp heq
        exact .inr ⟨before, other, after, rfl, hprefix⟩

/-- The first components of two equal texts with the same number of separators behind them. -/
theorem snoc_inj {before before' : List α} (hlast : sep ∉ last) (hword : sep ∉ word)
    (h : before ++ sep :: last = before' ++ sep :: word) : before = before' ∧ last = word := by
  rcases List.append_eq_append_iff.mp h with hsplit | hsplit
  · obtain ⟨more, hbefore, hmore⟩ := hsplit
    cases more with
    | nil => exact ⟨by simpa using hbefore.symm, by simpa using hmore⟩
    | cons x more =>
      rw [List.cons_append, List.cons_eq_cons] at hmore
      exact absurd (by simp [hmore.2]) hlast
  · obtain ⟨more, hbefore, hmore⟩ := hsplit
    cases more with
    | nil => exact ⟨by simpa using hbefore, by simpa using hmore.symm⟩
    | cons x more =>
      rw [List.cons_append, List.cons_eq_cons] at hmore
      exact absurd (by simp [hmore.2]) hword

theorem clean_sep (hword : sep ∉ word) : Occurrence.Clean (sep :: word) (sep :: word) := by
  intro k hk hpos
  obtain ⟨k, rfl⟩ := Nat.exists_eq_add_of_le' hpos
  rw [List.drop_succ_cons]
  rw [List.length_cons] at hk
  have hdrop : word.drop k = word[k] :: word.drop (k + 1) := List.drop_eq_getElem_cons (by omega)
  have hne : word[k] ≠ sep := fun heq => hword (heq ▸ List.getElem_mem _)
  rw [hdrop, List.cons_prefix_cons, List.cons_prefix_cons]
  exact ⟨fun h => hne h.1, fun h => hne h.1.symm⟩

/-- The first of the words that stand behind a separator ends the text exactly when it is the last component and
begins no other behind the first. -/
theorem indexOf?_last [DecidableEq α] (hword : sep ∉ word) (hfirst : sep ∉ first)
    (hrest : ∀ component ∈ rest, sep ∉ component) {pos : Nat}
    (hpos : pos + (word.length + 1) = (joined sep first rest).length) :
    Occurrence.indexOf? (sep :: word) (joined sep first rest) = some pos ↔
      ∃ before, rest = before ++ [word] ∧ ∀ component ∈ before, ¬ word <+: component := by
  have earlier {before : List (List α)} (hbefore : ∀ component ∈ before, sep ∉ component) :
      ¬ sep :: word <:+: joined sep first before ↔ ∀ component ∈ before, ¬ word <+: component := by
    rw [infix_joined hfirst hbefore]
    constructor
    · intro hnone component hcomponent hprefix
      obtain ⟨front, back, heq⟩ := List.append_of_mem hcomponent
      exact hnone ⟨front, component, back, heq, (prefix_joined hword).mpr hprefix⟩
    · intro hnone hsome
      obtain ⟨front, component, back, heq, hprefix⟩ := hsome
      exact hnone component (by simp [heq]) ((prefix_joined hword).mp hprefix)
  constructor
  · intro h
    obtain ⟨hsplit, hlen, hnone⟩ := Occurrence.split_at_first (List.cons_ne_nil _ _) h
    rw [List.drop_eq_nil_of_le (by rw [List.length_cons]; omega), List.append_nil] at hsplit
    rcases List.eq_nil_or_concat rest with hnil | ⟨before, last, hconcat⟩
    · refine absurd ?_ hfirst
      have hmem : sep ∈ joined sep first rest := by
        rw [hsplit]
        simp
      simpa [joined, hnil] using hmem
    · rw [List.concat_eq_append] at hconcat
      have hlast : sep ∉ last := hrest last (by simp [hconcat])
      rw [hconcat, joined_snoc] at hsplit
      obtain ⟨hbefore, heq⟩ := snoc_inj hlast hword hsplit
      rw [hconcat, joined_snoc, ← hbefore] at hnone
      refine ⟨before, by rw [hconcat, heq], ?_⟩
      exact (earlier fun component hcomponent => hrest component (by simp [hconcat, hcomponent])).mp hnone
  · intro h
    obtain ⟨before, hbefore, hnone⟩ := h
    have hfree : ∀ component ∈ before, sep ∉ component := fun component hcomponent =>
      hrest component (by simp [hbefore, hcomponent])
    have htext : joined sep first rest = joined sep first before ++ ((sep :: word) ++ []) := by
      rw [hbefore, joined_snoc, List.append_nil]
    have hlen : pos = (joined sep first before).length := by
      rw [htext] at hpos
      simp only [List.append_nil, List.length_append, List.length_cons] at hpos
      omega
    rw [Occurrence.indexOf?_eq_some_iff (List.cons_ne_nil _ _), htext, hlen]
    constructor
    · have hat : Occurrence.At (sep :: word) ((sep :: word) ++ []) 0 := Occurrence.at_zero
      simpa using Occurrence.at_append_left.mpr hat
    · intro j hj hat
      have hin := (clean_sep hword).straddle hat hj
      exact (earlier hfree).mpr hnone (Occurrence.infix_iff_at.mpr ⟨j, hin⟩)

end Separators
