import ModelServer.Occurrence

/-! Erasing marks from a text, and from the two sides of a cut through it. -/

namespace Erasure

variable {α : Type*} [DecidableEq α]

/-- The text without the occurrences of a mark that are met from left to right. -/
def erase (mark : List α) : List α → List α
  | [] => []
  | c :: cs =>
    if mark ≠ [] ∧ mark <+: c :: cs then erase mark ((c :: cs).drop mark.length)
    else c :: erase mark cs
termination_by text => text.length
decreasing_by
  · rename_i h
    have := List.length_pos_iff.mpr h.1
    simp only [List.length_drop, List.length_cons]
    omega
  · simp

/-- One mark after the other. -/
def eraseEach (marks : List (List α)) (text : List α) : List α :=
  marks.foldl (fun text mark => erase mark text) text

/-- The mark begins before the cut and ends behind it. -/
def Straddles (mark x y : List α) : Prop :=
  ∃ p q, p ≠ [] ∧ q ≠ [] ∧ mark = p ++ q ∧ p <:+ x ∧ q <+: y

/-- No mark lies across the cut once the earlier ones are erased on both sides. -/
def Seamless : List (List α) → List α → List α → Prop
  | [], _, _ => True
  | mark :: marks, x, y => ¬ Straddles mark x y ∧ Seamless marks (erase mark x) (erase mark y)

section Erase

variable {mark : List α}

theorem erase_nil : erase mark [] = [] := by
  rw [erase]

theorem erase_mark (hm : mark ≠ []) (rest : List α) : erase mark (mark ++ rest) = erase mark rest := by
  obtain ⟨c, cs, rfl⟩ := List.exists_cons_of_ne_nil hm
  rw [List.cons_append, erase, if_pos ⟨hm, by simp⟩]
  simp

theorem erase_cons {c : α} {cs : List α} (h : ¬ mark <+: c :: cs) :
    erase mark (c :: cs) = c :: erase mark cs := by
  rw [erase, if_neg fun hm => h hm.2]

theorem erase_first (hm : mark ≠ []) {text : List α} {i : Nat} (hat : Occurrence.At mark text i)
    (hfirst : ∀ j < i, ¬ Occurrence.At mark text j) :
    erase mark text = text.take i ++ erase mark (text.drop (i + mark.length)) := by
  induction i generalizing text with
  | zero =>
    obtain ⟨rest, hrest⟩ := hat
    rw [List.drop_zero] at hrest
    rw [← hrest, erase_mark hm, List.take_zero, Nat.zero_add, List.drop_left, List.nil_append]
  | succ i ih =>
    cases text with
    | nil =>
      have := hat.length_le hm
      simp at this
    | cons c cs =>
      have hno : ¬ mark <+: c :: cs := hfirst 0 (Nat.succ_pos i)
      have hat' : Occurrence.At mark cs i := hat
      rw [erase_cons hno, ih hat' fun j hj => hfirst (j + 1) (Nat.succ_lt_succ hj), Nat.add_right_comm]
      rfl

theorem erase_of_none {text : List α} (hn : ¬ mark <:+: text) : erase mark text = text := by
  induction text with
  | nil => exact erase_nil
  | cons c cs ih =>
    rw [erase_cons fun hp => hn hp.isInfix, ih fun hi => hn (hi.trans (List.suffix_cons c cs).isInfix)]

omit [DecidableEq α] in
theorem Straddles.weaken {x x' y : List α} (h : Straddles mark x y) (hx : x <:+ x') :
    Straddles mark x' y := by
  obtain ⟨p, q, hp, hq, hmark, hpx, hqy⟩ := h
  exact ⟨p, q, hp, hq, hmark, hpx.trans hx, hqy⟩

/-- Without a mark across the cut, both sides are erased by themselves. -/
theorem erase_append (hm : mark ≠ []) {x y : List α} (h : ¬ Straddles mark x y) :
    erase mark (x ++ y) = erase mark x ++ erase mark y := by
  induction hn : x.length using Nat.strongRecOn generalizing x with
  | ind n ih =>
    subst hn
    by_cases hpre : mark <+: x
    · obtain ⟨rest, rfl⟩ := hpre
      have hlen := List.length_pos_iff.mpr hm
      have hrest : ¬ Straddles mark rest y := fun hs => h (hs.weaken (List.suffix_append mark rest))
      rw [List.append_assoc, erase_mark hm, erase_mark hm]
      exact ih rest.length (by simp only [List.length_append]; omega) hrest rfl
    · cases x with
      | nil => rw [List.nil_append, erase_nil, List.nil_append]
      | cons c cs =>
        have hacross : ¬ mark <+: c :: (cs ++ y) := by
          intro hp
          rcases List.prefix_or_prefix_of_prefix hp (List.prefix_append (c :: cs) y) with hin | hin
          · exact hpre hin
          · obtain ⟨q, rfl⟩ := hin
            have hq : q <+: y := by
              rw [← List.cons_append] at hp
              exact (List.prefix_append_right_inj _).mp hp
            refine h ⟨c :: cs, q, by simp, ?_, rfl, List.suffix_rfl, hq⟩
            rintro rfl
            exact hpre (by simp)
        have hrest : ¬ Straddles mark cs y := fun hs => h (hs.weaken (List.suffix_cons c cs))
        rw [List.cons_append, erase_cons hacross, erase_cons hpre, List.cons_append]
        congr 1
        exact ih cs.length (by simp) hrest rfl

end Erase

/-- The mark begins with `opener`, which does not come again in it. -/
def Opened (opener : α) (mark : List α) : Prop := ∃ body, mark = opener :: body ∧ opener ∉ body

section Opened

variable {opener : α} {mark : List α}

omit [DecidableEq α] in
theorem Opened.ne_nil (h : Opened opener mark) : mark ≠ [] := by
  obtain ⟨body, rfl, _⟩ := h
  simp

omit [DecidableEq α] in
/-- What a mark ends with behind a cut does not open one. -/
theorem Opened.rest (h : Opened opener mark) {p q : List α} (hmark : mark = p ++ q) (hp : p ≠ []) :
    opener ∉ q := by
  obtain ⟨body, rfl, hbody⟩ := h
  cases p with
  | nil => exact absurd rfl hp
  | cons c p =>
    obtain ⟨rfl, rfl⟩ := List.cons.inj hmark
    exact fun hmem => hbody (List.mem_append_right p hmem)

theorem erase_of_notMem (h : Opened opener mark) {q : List α} (hq : opener ∉ q) (y : List α) :
    erase mark (q ++ y) = q ++ erase mark y := by
  obtain ⟨body, rfl, _⟩ := h
  induction q with
  | nil => rfl
  | cons c q ih =>
    have hne : opener ≠ c := fun he => hq (by simp [he])
    rw [List.cons_append, erase_cons, ih fun hmem => hq (List.mem_cons_of_mem c hmem), List.cons_append]
    intro hp
    exact hne (List.cons_prefix_cons.mp hp).1

omit [DecidableEq α] in
/-- A mark does not lie across a cut behind which something opens. -/
theorem not_straddles_of_opened (h : Opened opener mark) {x y : List α}
    (hy : y = [] ∨ y.head? = some opener) : ¬ Straddles mark x y := by
  rintro ⟨p, q, hp, hq, hmark, _, hqy⟩
  obtain ⟨c, q, rfl⟩ := List.exists_cons_of_ne_nil hq
  obtain ⟨tail, rfl⟩ := hqy
  rcases hy with hy | hy
  · cases hy
  · cases Option.some.inj hy
    exact h.rest hmark hp (by simp)

/-- A mark across the cut is gone from the whole. -/
theorem erase_straddled (h : Opened opener mark) {p q : List α} (hmark : mark = p ++ q) (u v : List α) :
    erase mark ((u ++ p) ++ (q ++ v)) = erase mark u ++ erase mark v := by
  have hopen : (mark ++ v).head? = some opener := by
    obtain ⟨body, rfl, _⟩ := h
    rfl
  have hsplit : (u ++ p) ++ (q ++ v) = u ++ (mark ++ v) := by simp [hmark]
  rw [hsplit, erase_append h.ne_nil (not_straddles_of_opened h (Or.inr hopen)), erase_mark h.ne_nil]

end Opened

/-- Marks that all open with `opener`, none a beginning of another. -/
structure Marks (opener : α) (marks : List (List α)) : Prop where
  opened : ∀ mark ∈ marks, Opened opener mark
  prefixFree : ∀ a ∈ marks, ∀ b ∈ marks, a <+: b → a = b

/-- Beginnings of marks that were cut off, one behind the other. -/
inductive CutOff (marks : List (List α)) : List α → Prop
  | nil : CutOff marks []
  | more {mark p q rest} : mark ∈ marks → p ≠ [] → q ≠ [] → mark = p ++ q → CutOff marks rest →
      CutOff marks (p ++ rest)

section Marks

variable {opener : α} {all marks : List (List α)}

omit [DecidableEq α] in
theorem CutOff.head (hm : Marks opener all) {text : List α} (h : CutOff all text) :
    text = [] ∨ text.head? = some opener := by
  cases h with
  | nil => exact Or.inl rfl
  | more hmem hp _ hmark _ =>
    obtain ⟨body, hbody, _⟩ := hm.opened _ hmem
    obtain ⟨c, p, rfl⟩ := List.exists_cons_of_ne_nil hp
    rw [hmark] at hbody
    obtain ⟨rfl, _⟩ := List.cons.inj hbody
    exact Or.inr rfl

/-- Nothing is erased of what was cut off. -/
theorem CutOff.erase (hm : Marks opener all) {text : List α} (h : CutOff all text) {mark : List α}
    (hmem : mark ∈ all) : erase mark text = text := by
  have hopened := hm.opened mark hmem
  induction h with
  | nil => exact erase_nil
  | @more other p q rest hother hp hq hmark hrest ih =>
    have hhead := hrest.head hm
    rw [erase_append hopened.ne_nil (not_straddles_of_opened hopened hhead), ih]
    congr 1
    obtain ⟨body, hbody, hclosed⟩ := hm.opened other hother
    obtain ⟨c, p, rfl⟩ := List.exists_cons_of_ne_nil hp
    obtain ⟨rfl, htail⟩ := List.cons.inj (hmark.symm.trans hbody)
    have hp' : c ∉ p := by
      intro hc
      rw [← htail] at hclosed
      exact hclosed (List.mem_append_left q hc)
    have hno : ¬ mark <+: c :: p := by
      intro hpre
      have hsame := hm.prefixFree mark hmem other hother (hpre.trans ⟨q, hmark.symm⟩)
      have hlen := hpre.length_le
      have hpos := List.length_pos_iff.mpr hq
      rw [hsame, hmark] at hlen
      simp only [List.length_append] at hlen
      omega
    have hkeep := erase_of_notMem hopened hp' []
    rw [List.append_nil, erase_nil, List.append_nil] at hkeep
    rw [erase_cons hno, hkeep]

theorem CutOff.append (hm : Marks opener all) {text : List α} (h : CutOff all text) {mark : List α}
    (hmem : mark ∈ all) (u : List α) : Erasure.erase mark (u ++ text) = Erasure.erase mark u ++ text := by
  have hopened := hm.opened mark hmem
  rw [erase_append hopened.ne_nil (not_straddles_of_opened hopened (h.head hm)), h.erase hm hmem]

/-- A text that is erased whole keeps at most what its two parts keep, and nothing of the
marks that the cut went through. -/
theorem eraseEach_cut (hm : Marks opener all) (hsub : ∀ mark ∈ marks, mark ∈ all) {u v front back : List α}
    (hfront : CutOff all front) (hback : opener ∉ back) :
    ∃ u' v' front' back', eraseEach marks (u ++ v) = u' ++ v' ∧
      eraseEach marks (u ++ front) = u' ++ front' ∧ eraseEach marks (back ++ v) = back' ++ v' ∧
      front.length ≤ front'.length := by
  induction marks generalizing u v front back with
  | nil => exact ⟨u, v, front, back, rfl, rfl, rfl, le_rfl⟩
  | cons mark marks ih =>
    have hmem := hsub mark (List.mem_cons_self ..)
    have hopened := hm.opened mark hmem
    have hrest : ∀ other ∈ marks, other ∈ all := fun other ho => hsub other (List.mem_cons_of_mem _ ho)
    simp only [eraseEach, List.foldl_cons] at ih ⊢
    by_cases hs : Straddles mark u v
    · obtain ⟨p, q, hp, hq, hmark, ⟨u, rfl⟩, ⟨v, rfl⟩⟩ := hs
      have hfront' : CutOff all (p ++ front) := .more hmem hp hq hmark hfront
      have hback' : opener ∉ back ++ q := by
        simpa using ⟨hback, hopened.rest hmark hp⟩
      obtain ⟨u', v', front', back', hwhole, hleft, hright, hlen⟩ :=
        ih hrest (u := erase mark u) (v := erase mark v) hfront' hback'
      refine ⟨u', v', front', back', ?_, ?_, ?_, ?_⟩
      · rw [erase_straddled hopened hmark]
        exact hwhole
      · rw [List.append_assoc, hfront'.append hm hmem]
        exact hleft
      · rw [← List.append_assoc, erase_of_notMem hopened hback']
        exact hright
      · simp only [List.length_append] at hlen
        omega
    · obtain ⟨u', v', front', back', hwhole, hleft, hright, hlen⟩ :=
        ih hrest (u := erase mark u) (v := erase mark v) hfront hback
      refine ⟨u', v', front', back', ?_, ?_, ?_, hlen⟩
      · rw [erase_append hopened.ne_nil hs]
        exact hwhole
      · rw [hfront.append hm hmem]
        exact hleft
      · rw [erase_of_notMem hopened hback]
        exact hright

theorem eraseEach_append (hm : Marks opener marks) {x y : List α} (h : Seamless marks x y) :
    eraseEach marks (x ++ y) = eraseEach marks x ++ eraseEach marks y := by
  have hne : ∀ mark ∈ marks, mark ≠ [] := fun mark hmem => (hm.opened mark hmem).ne_nil
  clear hm
  induction marks generalizing x y with
  | nil => rfl
  | cons mark marks ih =>
    obtain ⟨hs, hrest⟩ := h
    simp only [eraseEach, List.foldl_cons] at ih ⊢
    rw [erase_append (hne mark (List.mem_cons_self ..)) hs]
    exact ih hrest fun other ho => hne other (List.mem_cons_of_mem _ ho)

theorem length_eraseEach_append (hm : Marks opener marks) (x y : List α) :
    (eraseEach marks (x ++ y)).length ≤ (eraseEach marks x).length + (eraseEach marks y).length := by
  obtain ⟨u', v', front', back', hwhole, hleft, hright, _⟩ :=
    eraseEach_cut hm (fun _ hmem => hmem) (u := x) (v := y) .nil (List.not_mem_nil (a := opener))
  rw [List.append_nil] at hleft
  rw [List.nil_append] at hright
  rw [hwhole, hleft, hright]
  simp only [List.length_append]
  omega

/-- A mark across the cut that the whole loses is left over in the two parts. -/
theorem length_eraseEach_of_straddled (hm : Marks opener all) (hsub : ∀ mark ∈ marks, mark ∈ all)
    {x y : List α} (h : ¬ Seamless marks x y) :
    (eraseEach marks (x ++ y)).length < (eraseEach marks x).length + (eraseEach marks y).length := by
  induction marks generalizing x y with
  | nil => exact absurd trivial h
  | cons mark marks ih =>
    have hmem := hsub mark (List.mem_cons_self ..)
    have hopened := hm.opened mark hmem
    have hrest : ∀ other ∈ marks, other ∈ all := fun other ho => hsub other (List.mem_cons_of_mem _ ho)
    simp only [eraseEach, List.foldl_cons] at ih ⊢
    by_cases hs : Straddles mark x y
    · obtain ⟨p, q, hp, hq, hmark, ⟨u, rfl⟩, ⟨v, rfl⟩⟩ := hs
      have hcut : CutOff all (p ++ []) := .more hmem hp hq hmark .nil
      have hq' := hopened.rest hmark hp
      obtain ⟨u', v', front', back', hwhole, hleft, hright, hlen⟩ :=
        eraseEach_cut hm hrest (u := erase mark u) (v := erase mark v) hcut hq'
      have hpos := List.length_pos_iff.mpr hp
      rw [List.append_nil] at hcut hleft hlen
      rw [eraseEach] at hwhole hleft hright
      rw [erase_straddled hopened hmark, hcut.append hm hmem, erase_of_notMem hopened hq', hwhole, hleft,
        hright]
      simp only [List.length_append]
      omega
    · have hnext : ¬ Seamless marks (erase mark x) (erase mark y) := fun hn => h ⟨hs, hn⟩
      rw [erase_append hopened.ne_nil hs]
      exact ih hrest hnext

end Marks

end Erasure
