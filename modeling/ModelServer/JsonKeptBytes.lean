import ModelServer.JsonTraversal

/-! Which bytes a text that is read may have, and which of them come back in the value. -/

namespace Json

section KeptBytes

/-- The text up to `rest` has been read: if it has this byte, so has what is kept of it, and without a backslash all that is kept
stands in it. -/
def Keeps (byte : UInt8) (text rest kept : List UInt8) : Prop :=
  ∃ used, text = used ++ rest ∧ (byte ∈ used → byte ∈ kept) ∧ (92 ∉ used → kept ⊆ used)

namespace Keeps

variable {byte : UInt8} {text middle rest kept kept' used : List UInt8}

theorem append (h : Keeps byte text middle kept) (h' : Keeps byte middle rest kept') : Keeps byte text rest (kept ++ kept') := by
  obtain ⟨used, rfl, hkept, hsub⟩ := h
  obtain ⟨used', rfl, hkept', hsub'⟩ := h'
  refine ⟨used ++ used', (List.append_assoc ..).symm, fun hmem => ?_, fun hplain => ?_⟩
  · rcases List.mem_append.mp hmem with hmem | hmem
    · exact List.mem_append_left _ (hkept hmem)
    · exact List.mem_append_right _ (hkept' hmem)
  · rw [List.mem_append, not_or] at hplain
    exact List.append_subset.mpr ⟨List.subset_append_of_subset_left _ (hsub hplain.1),
      List.subset_append_of_subset_right _ (hsub' hplain.2)⟩

theorem nil : Keeps byte text text [] := ⟨[], rfl, id, fun _ => List.Subset.refl _⟩

theorem of_notMem (used rest : List UInt8) (h : byte ∉ used) : Keeps byte (used ++ rest) rest [] :=
  ⟨used, rfl, fun hmem => absurd hmem h, fun _ => List.nil_subset _⟩

theorem behind (h : Keeps byte text rest kept) (used : List UInt8) (hused : byte ∉ used) : Keeps byte (used ++ text) rest kept :=
  (of_notMem used text hused).append h

theorem escape (h : Keeps byte text rest kept) (hused : byte ∉ used) (hbackslash : 92 ∈ used) (s : List UInt8) :
    Keeps byte (used ++ text) rest (s ++ kept) := by
  obtain ⟨used', rfl, hkept, -⟩ := h
  refine ⟨used ++ used', (List.append_assoc ..).symm, fun hmem => ?_, fun hplain => ?_⟩
  · exact List.mem_append_right _ (hkept ((List.mem_append.mp hmem).resolve_left hused))
  · exact absurd (List.mem_append_left _ hbackslash) hplain

end Keeps

theorem quote_notMem_of_codeUnit {a b c d : UInt8} {unit : Nat} (h : codeUnit a b c d = some unit) : 39 ∉ [92, 117, a, b, c, d] := by
  obtain ⟨va, ha, h⟩ := Option.bind_eq_some_iff.mp h
  obtain ⟨vb, hb, h⟩ := Option.bind_eq_some_iff.mp h
  obtain ⟨vc, hc, h⟩ := Option.bind_eq_some_iff.mp h
  obtain ⟨vd, hd, h⟩ := Option.bind_eq_some_iff.mp h
  have hdigit {x : UInt8} {n : Nat} (hx : hexValue x = some n) : 39 ≠ x := by
    rintro rfl
    cases hx
  simp [hdigit ha, hdigit hb, hdigit hc, hdigit hd]

theorem quote_of_unescaped {c d : UInt8} (h : unescaped c = some d) : 39 ∉ [92, c] := by
  have hne : 39 ≠ c := by
    rintro rfl
    cases h
  simp [hne]

section Numbers

/-- A byte of no number. -/
structure NotNumeric (byte : UInt8) : Prop where
  digit : isDigit byte = false
  mark : byte ∉ [43, 45, 46, 69, 101]

variable {byte : UInt8} {token : List UInt8}

theorem NotNumeric.notMem (h : NotNumeric byte) {used : List UInt8} (hused : ∀ c ∈ used, isNumeric c = true) : byte ∉ used := by
  intro hmem
  rcases Bool.or_eq_true_iff.mp (hused byte hmem) with hdigit | hmark
  · rw [h.digit] at hdigit
    cases hdigit
  · exact h.mark (List.contains_iff_mem.mp hmark)

theorem Keeps.numberTraversal (hbyte : NotNumeric byte) : NumberTraversal (Keeps byte) where
  nil _ := Keeps.nil
  append := Keeps.append
  numeric used rest hused := Keeps.of_notMem used rest (hbyte.notMem hused)

/-- The spelling of a number has no other bytes. -/
theorem notMem_of_readNumber (hbyte : NotNumeric byte) (h : readNumber token = some (token, [])) : byte ∉ token := by
  obtain ⟨used, heq, hkept, -⟩ := (Keeps.numberTraversal hbyte).number h
  rw [List.append_nil] at heq
  rw [heq]
  exact fun hmem => absurd (hkept hmem) List.not_mem_nil

end Numbers

theorem Keeps.quoteTraversal : Traversal (Keeps 39) where
  toNumberTraversal := Keeps.numberTraversal ⟨rfl, by decide⟩
  syntactic used rest hused := by
    refine Keeps.of_notMem used rest fun hmem => ?_
    exact absurd (List.all_eq_true.mp hused 39 hmem) (by decide)
  plain c rest _ _ _ := ⟨[c], rfl, id, fun _ => List.Subset.refl _⟩
  escape c d rest hescape := by
    have hkept : Keeps 39 (92 :: c :: rest) rest ([d] ++ []) :=
      Keeps.nil.escape (quote_of_unescaped hescape) List.mem_cons_self [d]
    exact hkept
  unit a b c d unit s rest hcode := by
    have hkept : Keeps 39 (92 :: 117 :: a :: b :: c :: d :: rest) rest (s ++ []) :=
      Keeps.nil.escape (quote_notMem_of_codeUnit hcode) List.mem_cons_self s
    rw [List.append_nil] at hkept
    exact hkept

/-- A single quote of a text that is read is one of a string or of a key. -/
theorem quote_of_readText {text : List UInt8} {value : Json} (h : readText text = some value) (hquote : 39 ∈ text) :
    39 ∈ stringBytes value := by
  obtain ⟨used, heq, hkept, -⟩ := Keeps.quoteTraversal.overText h
  rw [List.append_nil] at heq
  exact hkept (heq ▸ hquote)

/-- Without escapes the strings and the keys stand in the text. -/
theorem stringBytes_subset {text : List UInt8} {value : Json} (h : readText text = some value) (hplain : 92 ∉ text) :
    stringBytes value ⊆ text := by
  obtain ⟨used, heq, -, hsub⟩ := Keeps.quoteTraversal.overText h
  rw [List.append_nil] at heq
  rw [heq] at hplain ⊢
  exact hsub hplain

end KeptBytes

section TextBytes

/-- No control character but tabs and line ends. -/
def isTextByte (c : UInt8) : Bool := 32 ≤ c || c == 9 || c == 10 || c == 13

/-- The text up to `rest` has no other bytes. -/
def Spells (text rest : List UInt8) : Prop := ∃ used, text = used ++ rest ∧ ∀ c ∈ used, isTextByte c = true

theorem Spells.append {text middle rest : List UInt8} (h : Spells text middle) (h' : Spells middle rest) : Spells text rest := by
  obtain ⟨used, rfl, hused⟩ := h
  obtain ⟨used', rfl, hused'⟩ := h'
  refine ⟨used ++ used', (List.append_assoc ..).symm, fun c hc => ?_⟩
  rcases List.mem_append.mp hc with hc | hc
  · exact hused c hc
  · exact hused' c hc

theorem isTextByte_of_le {c : UInt8} (h : 32 ≤ c) : isTextByte c = true := by
  rw [isTextByte, decide_eq_true h]
  rfl

theorem isTextByte_of_contains {marks : List UInt8} (hmarks : marks.all isTextByte = true) {c : UInt8} (h : marks.contains c = true) :
    isTextByte c = true := List.all_eq_true.mp hmarks c (List.contains_iff_mem.mp h)

theorem isTextByte_of_syntactic {c : UInt8} (h : isSyntactic c = true) : isTextByte c = true := by
  rcases Bool.or_eq_true_iff.mp h with hblank | hmark
  · have hblanks : isBlank c = [32, 9, 10, 13].contains c := by
      rw [isBlank]
      simp only [List.contains_cons, List.contains_nil, Bool.or_false, Bool.or_assoc]
    rw [hblanks] at hblank
    exact isTextByte_of_contains (by decide) hblank
  · exact isTextByte_of_contains (by decide) hmark

theorem isTextByte_of_numeric {c : UInt8} (h : isNumeric c = true) : isTextByte c = true := by
  rcases Bool.or_eq_true_iff.mp h with hdigit | hmark
  · rw [isDigit, Bool.and_eq_true, decide_eq_true_iff] at hdigit
    exact isTextByte_of_le (UInt8.le_trans (by decide) hdigit.1)
  · exact isTextByte_of_contains (by decide) hmark

theorem isTextByte_of_hexValue {c : UInt8} {n : Nat} (h : hexValue c = some n) : isTextByte c = true := by
  unfold hexValue at h
  split at h
  next hdigit =>
    rw [Bool.and_eq_true, decide_eq_true_iff] at hdigit
    exact isTextByte_of_le (UInt8.le_trans (by decide) hdigit.1)
  split at h
  next hupper =>
    rw [Bool.and_eq_true, decide_eq_true_iff] at hupper
    exact isTextByte_of_le (UInt8.le_trans (by decide) hupper.1)
  split at h
  next hlower =>
    rw [Bool.and_eq_true, decide_eq_true_iff] at hlower
    exact isTextByte_of_le (UInt8.le_trans (by decide) hlower.1)
  next => cases h

theorem isTextByte_of_unescaped {c d : UInt8} (h : unescaped c = some d) : isTextByte c = true := by
  have hmark : [34, 92, 47, 98, 102, 110, 114, 116].contains c = true := by
    by_contra hmark
    simp only [List.contains_cons, List.contains_nil, Bool.or_false, Bool.or_eq_true, beq_iff_eq, not_or] at hmark
    simp [unescaped, hmark] at h
  exact isTextByte_of_contains (by decide) hmark

theorem Spells.traversal : Traversal fun text rest _ => Spells text rest where
  nil _ := ⟨[], rfl, fun c hc => absurd hc List.not_mem_nil⟩
  append := Spells.append
  numeric used _ hused := ⟨used, rfl, fun c hc => isTextByte_of_numeric (hused c hc)⟩
  syntactic used _ hused := ⟨used, rfl, fun c hc => isTextByte_of_syntactic (List.all_eq_true.mp hused c hc)⟩
  plain c _ hcontrol _ _ := by
    refine ⟨[c], rfl, fun x hx => ?_⟩
    rw [List.mem_singleton.mp hx]
    exact isTextByte_of_le (UInt8.not_lt.mp hcontrol)
  escape c d _ hescape := by
    refine ⟨[92, c], rfl, fun x hx => ?_⟩
    rcases List.mem_cons.mp hx with rfl | hx
    · rfl
    · rw [List.mem_singleton.mp hx]
      exact isTextByte_of_unescaped hescape
  unit a b c d unit s _ hcode := by
    obtain ⟨va, ha, hcode⟩ := Option.bind_eq_some_iff.mp hcode
    obtain ⟨vb, hb, hcode⟩ := Option.bind_eq_some_iff.mp hcode
    obtain ⟨vc, hc, hcode⟩ := Option.bind_eq_some_iff.mp hcode
    obtain ⟨vd, hd, -⟩ := Option.bind_eq_some_iff.mp hcode
    have hall : [92, 117, a, b, c, d].all isTextByte = true := by
      simp only [List.all_cons, List.all_nil, isTextByte_of_hexValue ha, isTextByte_of_hexValue hb, isTextByte_of_hexValue hc,
        isTextByte_of_hexValue hd]
      rfl
    exact ⟨[92, 117, a, b, c, d], rfl, List.all_eq_true.mp hall⟩

/-- A text that is read has no other bytes. -/
theorem textBytes_of_readText {text : List UInt8} {value : Json} (h : readText text = some value) : ∀ c ∈ text, isTextByte c = true := by
  obtain ⟨used, heq, hused⟩ := Spells.traversal.overText h
  rw [List.append_nil] at heq
  rw [heq]
  exact hused

end TextBytes

end Json
