import ModelServer.PartialMeet
import ModelServer.TensorInfo

namespace ModelServer

section Precision

/-- The precisions that a tensor of a precision may have. -/
def Precision.allowed (precision : Precision) : Set Precision :=
  {other | other ≠ .UNDEFINED ∧ (precision = .UNDEFINED ∨ other = precision)}

theorem mem_allowed_self {precision : Precision} (h : precision ≠ .UNDEFINED) : precision ∈ precision.allowed :=
  ⟨h, .inr rfl⟩

theorem intersectPrecision_eq_some {precision other result : Precision}
    (h : TensorInfo.intersectPrecision precision other = some result) :
    result = precision ∧ (other = .UNDEFINED ∨ other = precision) ∨ result = other ∧ precision = .UNDEFINED := by
  unfold TensorInfo.intersectPrecision at h
  split at h
  next =>
    split at h
    next hundefined => exact .inr ⟨(Option.some.inj h).symm, hundefined⟩
    next =>
      split at h
      next hundefined => exact .inl ⟨(Option.some.inj h).symm, .inl hundefined⟩
      next => cases h
  next heq => exact .inl ⟨(Option.some.inj h).symm, .inr (not_not.mp heq).symm⟩

theorem intersectPrecision_eq_none {precision other : Precision}
    (h : TensorInfo.intersectPrecision precision other = none) :
    precision ≠ .UNDEFINED ∧ other ≠ .UNDEFINED ∧ precision ≠ other := by
  unfold TensorInfo.intersectPrecision at h
  split at h
  next hne =>
    split at h
    next => cases h
    next hprecision =>
      split at h
      next => cases h
      next hother => exact ⟨hprecision, hother, hne⟩
  next => cases h

theorem partialMeet_precision :
    PartialMeet TensorInfo.intersectPrecision (fun _ => True) Precision.allowed := by
  constructor
  · intro precision _
    by_cases h : precision = .UNDEFINED
    · exact ⟨.FP32, by decide, .inl h⟩
    · exact ⟨precision, mem_allowed_self h⟩
  · intro precision other _ _ heq
    by_cases h : precision = .UNDEFINED
    · by_cases hother : other = .UNDEFINED
      · rw [h, hother]
      · -- an undefined precision allows more than one
        have hfirst : Precision.FP32 ∈ other.allowed := heq ▸ ⟨by decide, .inl h⟩
        have hsecond : Precision.I64 ∈ other.allowed := heq ▸ ⟨by decide, .inl h⟩
        have hsame := (hfirst.2.resolve_left hother).trans (hsecond.2.resolve_left hother).symm
        cases hsame
    · have hself : precision ∈ other.allowed := heq ▸ mem_allowed_self h
      rcases hself.2 with hother | hsame
      · have hfirst : Precision.FP32 ∈ precision.allowed := heq ▸ ⟨by decide, .inl hother⟩
        have hsecond : Precision.I64 ∈ precision.allowed := heq ▸ ⟨by decide, .inl hother⟩
        have hsame := (hfirst.2.resolve_left h).trans (hsecond.2.resolve_left h).symm
        cases hsame
      · exact hsame
  · exact fun _ _ _ _ _ _ => trivial
  · intro precision other result _ _ h
    rcases intersectPrecision_eq_some h with ⟨hresult, hother⟩ | ⟨hresult, hprecision⟩
    · rw [hresult, Set.inter_eq_left.mpr]
      intro value hvalue
      rcases hother with hother | hother
      · exact ⟨hvalue.1, .inl hother⟩
      · rwa [hother]
    · rw [hresult, Set.inter_eq_right.mpr]
      exact fun value hvalue => ⟨hvalue.1, .inl hprecision⟩
  · intro precision other _ _ h
    obtain ⟨hprecision, hother, hne⟩ := intersectPrecision_eq_none h
    rw [Set.eq_empty_iff_forall_notMem]
    rintro value ⟨⟨_, hvalue⟩, _, hvalue'⟩
    exact hne ((hvalue.resolve_left hprecision).symm.trans (hvalue'.resolve_left hother))

end Precision

section Shape

/-- The sizes that a dimension allows. -/
def Dimension.allowed (dimension : Dimension) : Set Int := {value | dimension.match value = true}

theorem Dimension.mem_allowed_any {value : Int} : value ∈ Dimension.any.allowed ↔ -1 ≤ value := by
  simp only [Dimension.allowed, Dimension.match, Set.mem_ofPred_eq]
  split <;> simp_all [Dimension.isAny, Dimension.any]

theorem Dimension.mem_allowed {dimension : Dimension} (h : dimension ≠ Dimension.any) {value : Int} :
    value ∈ dimension.allowed ↔ dimension.minimum ≤ value ∧ value ≤ dimension.maximum := by
  obtain ⟨hpos, hle⟩ := Dimension.range_of_ne_any h
  have hany : dimension.isAny = false := by
    simp only [Dimension.isAny, Bool.and_eq_false_iff, decide_eq_false_iff_not]
    omega
  simp only [Dimension.allowed, Dimension.match, Set.mem_ofPred_eq, hany, Dimension.isStatic, Bool.and_eq_true,
    decide_eq_true_eq, Bool.false_eq_true, ↓reduceIte]
  split
  next =>
    simp only [Bool.false_eq_true, false_iff]
    omega
  next =>
    split
    next =>
      simp only [decide_eq_true_eq]
      omega
    next => simp

theorem Dimension.allowed_subset_any (dimension : Dimension) : dimension.allowed ⊆ Dimension.any.allowed := by
  intro value hvalue
  rw [Dimension.mem_allowed_any]
  by_cases h : dimension = Dimension.any
  · rwa [h, Dimension.mem_allowed_any] at hvalue
  · obtain ⟨hpos, _⟩ := Dimension.range_of_ne_any h
    rw [Dimension.mem_allowed h] at hvalue
    omega

theorem Dimension.ext_range {dimension other : Dimension} (hminimum : dimension.minimum = other.minimum)
    (hmaximum : dimension.maximum = other.maximum) : dimension = other := by
  obtain ⟨_, _, _⟩ := dimension
  obtain ⟨_, _, _⟩ := other
  cases hminimum
  cases hmaximum
  rfl

/-- A range does not allow all sizes. -/
theorem Dimension.allowed_ne_any {dimension : Dimension} (h : dimension ≠ Dimension.any) :
    dimension.allowed ≠ Dimension.any.allowed := by
  intro heq
  obtain ⟨hpos, hle⟩ := Dimension.range_of_ne_any h
  have hmore : dimension.maximum + 1 ∈ dimension.allowed := by
    rw [heq, Dimension.mem_allowed_any]
    omega
  rw [Dimension.mem_allowed h] at hmore
  omega

theorem partialMeet_dimension : PartialMeet Dimension.createIntersection (fun _ => True) Dimension.allowed := by
  constructor
  · intro dimension _
    by_cases h : dimension = Dimension.any
    · exact ⟨0, by rw [h, Dimension.mem_allowed_any]; omega⟩
    · obtain ⟨_, hle⟩ := Dimension.range_of_ne_any h
      exact ⟨dimension.minimum, (Dimension.mem_allowed h).mpr ⟨le_refl _, hle⟩⟩
  · intro dimension other _ _ heq
    by_cases h : dimension = Dimension.any
    · by_contra hne
      rw [h] at heq hne
      exact Dimension.allowed_ne_any (Ne.symm hne) heq.symm
    · have hother : other ≠ Dimension.any := by
        rintro rfl
        exact Dimension.allowed_ne_any h heq
      obtain ⟨_, hle⟩ := Dimension.range_of_ne_any h
      obtain ⟨_, hle'⟩ := Dimension.range_of_ne_any hother
      have hends : ∀ value, (dimension.minimum ≤ value ∧ value ≤ dimension.maximum) ↔
          (other.minimum ≤ value ∧ value ≤ other.maximum) := by
        intro value
        rw [← Dimension.mem_allowed h, ← Dimension.mem_allowed hother, heq]
      have hfirst := hends dimension.minimum
      have hlast := hends dimension.maximum
      have hfirst' := hends other.minimum
      have hlast' := hends other.maximum
      exact Dimension.ext_range (by omega) (by omega)
  · exact fun _ _ _ _ _ _ => trivial
  · intro dimension other result _ _ hmeet
    unfold Dimension.createIntersection at hmeet
    split at hmeet
    next hany =>
      cases hmeet
      rw [hany, Set.inter_eq_right.mpr (Dimension.allowed_subset_any other)]
    next hne =>
      split at hmeet
      next hany =>
        cases hmeet
        rw [hany, Set.inter_eq_left.mpr (Dimension.allowed_subset_any dimension)]
      next hother =>
        split at hmeet
        next => cases hmeet
        next hoverlap =>
          have hresult := Option.some.inj hmeet
          obtain ⟨hpos, _⟩ := Dimension.range_of_ne_any hne
          obtain ⟨hpos', _⟩ := Dimension.range_of_ne_any hother
          have hminimum : result.minimum = max dimension.minimum other.minimum := by
            rw [← hresult, ← Dimension.getLowerBound_eq dimension, ← Dimension.getLowerBound_eq other]
          have hmaximum : result.maximum = min dimension.maximum other.maximum := by
            rw [← hresult]
            rfl
          have hrange : result ≠ Dimension.any := by
            intro hany
            have hany' : max dimension.minimum other.minimum = -1 := hminimum.symm.trans (congrArg Dimension.minimum hany)
            omega
          ext value
          rw [Set.mem_inter_iff, Dimension.mem_allowed hne, Dimension.mem_allowed hother, Dimension.mem_allowed hrange,
            hminimum, hmaximum]
          omega
  · intro dimension other _ _ hmeet
    unfold Dimension.createIntersection at hmeet
    split at hmeet
    next => cases hmeet
    next hne =>
      split at hmeet
      next => cases hmeet
      next hother =>
        split at hmeet
        next hempty =>
          rw [Dimension.getLowerBound_eq, Dimension.getLowerBound_eq] at hempty
          unfold Dimension.getUpperBound at hempty
          rw [Set.eq_empty_iff_forall_notMem]
          intro value hvalue
          rw [Set.mem_inter_iff, Dimension.mem_allowed hne, Dimension.mem_allowed hother] at hvalue
          omega
        next => cases hmeet

theorem Shape.createIntersection_eq (shape other : Shape) :
    shape.createIntersection other = PartialMeet.listMeet Dimension.createIntersection shape other := by
  induction shape generalizing other with
  | nil =>
    cases other with
    | nil => rfl
    | cons => rfl
  | cons dimension shape ih =>
    cases other with
    | nil => rfl
    | cons dimension' other =>
      rw [Shape.createIntersection, PartialMeet.listMeet, ← ih]
      cases dimension.createIntersection dimension' with
      | none => rfl
      | some => rfl

/-- The dimensions that a shape allows. -/
def Shape.allowed (shape : Shape) : Set (List Int) := PartialMeet.listAllowed Dimension.allowed shape

theorem Shape.mem_allowed {shape : Shape} {values : List Int} :
    values ∈ shape.allowed ↔ shape.match values = true := by
  unfold Shape.allowed
  induction shape generalizing values with
  | nil =>
    cases values with
    | nil => simp [PartialMeet.listAllowed, Shape.match]
    | cons => simp [PartialMeet.listAllowed, Shape.match]
  | cons dimension shape ih =>
    cases values with
    | nil => simp [PartialMeet.listAllowed, Shape.match]
    | cons value values =>
      rw [PartialMeet.mem_listAllowed_cons, ih, Shape.match, Bool.and_eq_true]
      rfl

theorem partialMeet_shape : PartialMeet Shape.createIntersection (fun _ => True) Shape.allowed := by
  have hmeet : Shape.createIntersection = PartialMeet.listMeet Dimension.createIntersection := by
    funext shape other
    exact shape.createIntersection_eq other
  have hlist := PartialMeet.list partialMeet_dimension
  rw [← hmeet] at hlist
  have hall : ∀ shape : Shape, ∀ dimension ∈ shape, True := fun _ _ _ => trivial
  exact {
    nonempty := fun shape _ => hlist.nonempty shape (hall shape)
    injective := fun shape other _ _ => hlist.injective shape other (hall shape) (hall other)
    closed := fun _ _ _ _ _ _ => trivial
    inter := fun shape other result _ _ => hlist.inter shape other result (hall shape) (hall other)
    disjoint := fun shape other _ _ => hlist.disjoint shape other (hall shape) (hall other) }

theorem Shape.length_createIntersection {shape other result : Shape} (h : shape.createIntersection other = some result) :
    shape.length = result.length ∧ other.length = result.length := by
  have hmeet := partialMeet_shape
  obtain ⟨values, hvalues⟩ := hmeet.nonempty result trivial
  have hboth := hvalues
  rw [hmeet.inter shape other result trivial trivial h] at hboth
  have hlength := PartialMeet.length_of_allowed hvalues
  exact ⟨(PartialMeet.length_of_allowed hboth.1).symm.trans hlength,
    (PartialMeet.length_of_allowed hboth.2).symm.trans hlength⟩

end Shape

section Letters

/-- No letter stands for two dimensions. -/
def Distinct (letters : List Char) : Prop := letters.Pairwise fun a b => a = '?' ∨ a ≠ b

/-- The letters that a dimension may have that is written as a letter. -/
def letterAllowed (letter : Char) : Set Char := {other | letter = '?' ∨ other = letter}

/-- The texts of letters that say more than a text of letters. -/
def lettersAllowed (letters : List Char) : Set (List Char) :=
  {others | Distinct others} ∩ PartialMeet.listAllowed letterAllowed letters

/-- Texts of as many letters are intersected. -/
def lettersMeet (lhs rhs : List Char) : Option (List Char) :=
  if lhs.length ≠ rhs.length then none else Layout.intersectLetters [] lhs rhs

theorem mem_listAllowed_append {letters rest others others' : List Char}
    (h : others ∈ PartialMeet.listAllowed letterAllowed letters)
    (h' : others' ∈ PartialMeet.listAllowed letterAllowed rest) :
    others ++ others' ∈ PartialMeet.listAllowed letterAllowed (letters ++ rest) := by
  exact List.rel_append h h'

theorem mem_listAllowed_self (letters : List Char) : letters ∈ PartialMeet.listAllowed letterAllowed letters :=
  List.forall₂_same.mpr fun _ _ => .inr rfl

/-- A text that says more has the letters of a text. -/
theorem mem_of_allowed {letters others : List Char} {letter : Char}
    (h : others ∈ PartialMeet.listAllowed letterAllowed letters) (hm : letter ∈ letters) (hne : letter ≠ '?') :
    letter ∈ others := by
  induction letters generalizing others with
  | nil => exact absurd hm List.not_mem_nil
  | cons first letters ih =>
    cases others with
    | nil => exact absurd (PartialMeet.length_of_allowed h) (by simp)
    | cons other others =>
      obtain ⟨hfirst, hrest⟩ := PartialMeet.mem_listAllowed_cons.mp h
      rcases List.mem_cons.mp hm with rfl | hm
      · rw [hfirst.resolve_left hne]
        exact List.mem_cons_self
      · exact List.mem_cons_of_mem _ (ih hrest hm)

/-- Two texts that say more than each other are the same. -/
theorem listAllowed_antisymm {letters others : List Char}
    (h : others ∈ PartialMeet.listAllowed letterAllowed letters)
    (h' : letters ∈ PartialMeet.listAllowed letterAllowed others) : letters = others := by
  induction letters generalizing others with
  | nil => exact (List.length_eq_zero_iff.mp (PartialMeet.length_of_allowed h)).symm
  | cons letter letters ih =>
    cases others with
    | nil => exact absurd (PartialMeet.length_of_allowed h) (by simp)
    | cons other others =>
      obtain ⟨hfirst, hrest⟩ := PartialMeet.mem_listAllowed_cons.mp h
      obtain ⟨hfirst', hrest'⟩ := PartialMeet.mem_listAllowed_cons.mp h'
      rw [ih hrest hrest']
      rcases hfirst with hletter | hletter
      · rcases hfirst' with hother | hother
        · rw [hletter, hother]
        · rw [hother]
      · rw [hletter]

/-- A letter is put in the place of one that is not known. -/
theorem Distinct.replace {checked letters : List Char} {letter : Char} (h : Distinct (checked ++ '?' :: letters))
    (hnew : letter ∉ checked ++ '?' :: letters) : Distinct (checked ++ letter :: letters) := by
  unfold Distinct at h ⊢
  rw [List.pairwise_append, List.pairwise_cons] at h ⊢
  obtain ⟨hchecked, ⟨_, hletters⟩, hacross⟩ := h
  refine ⟨hchecked, ⟨?_, hletters⟩, ?_⟩
  · intro other hm
    right
    intro heq
    rw [heq] at hnew
    exact hnew (List.mem_append_right _ (List.mem_cons_of_mem _ hm))
  · intro before hbefore other hm
    rcases List.mem_cons.mp hm with rfl | hm
    · right
      intro heq
      rw [heq] at hbefore
      exact hnew (List.mem_append_left _ hbefore)
    · exact hacross before hbefore other (List.mem_cons_of_mem _ hm)

theorem not_distinct_of_mem {before after : List Char} {letter : Char} (hm : letter ∈ before) (hm' : letter ∈ after)
    (hne : letter ≠ '?') : ¬ Distinct (before ++ after) := by
  intro h
  rcases (List.pairwise_append.mp h).2.2 letter hm letter hm' with heq | heq
  · exact hne heq
  · exact heq rfl

theorem intersectLetters_nil (checked : List Char) : Layout.intersectLetters checked [] [] = some checked := by
  simp [Layout.intersectLetters]

/-- What the letters are intersected to says what both texts say and no more. -/
theorem intersectLetters_some {checked lhs rhs result : List Char} (hlength : lhs.length = rhs.length)
    (hdistinct : Distinct (checked ++ lhs)) (h : Layout.intersectLetters checked lhs rhs = some result) :
    ∃ letters, result = checked ++ letters ∧ Distinct result ∧ PartialMeet.listAllowed letterAllowed letters =
      PartialMeet.listAllowed letterAllowed lhs ∩ PartialMeet.listAllowed letterAllowed rhs := by
  induction lhs generalizing checked rhs with
  | nil =>
    cases rhs with
    | nil =>
      rw [intersectLetters_nil] at h
      cases h
      exact ⟨[], (List.append_nil _).symm, by simpa using hdistinct, (Set.inter_self _).symm⟩
    | cons => cases hlength
  | cons l lhs ih =>
    cases rhs with
    | nil => cases hlength
    | cons r rhs =>
      have hrest : lhs.length = rhs.length := Nat.succ.inj hlength
      -- the letter that is passed allows what both letters allow
      have hpass : ∀ letter, Distinct (checked ++ letter :: lhs) → letterAllowed letter = letterAllowed l ∩ letterAllowed r →
          Layout.intersectLetters (checked ++ [letter]) lhs rhs = some result →
          ∃ letters, result = checked ++ letters ∧ Distinct result ∧ PartialMeet.listAllowed letterAllowed letters =
            PartialMeet.listAllowed letterAllowed (l :: lhs) ∩ PartialMeet.listAllowed letterAllowed (r :: rhs) := by
        intro letter hdistinct hletter hnext
        obtain ⟨letters, hresult, hkept, hinter⟩ := ih hrest (by simpa using hdistinct) hnext
        refine ⟨letter :: letters, by simpa using hresult, hkept, ?_⟩
        ext others
        cases others with
        | nil => simp [PartialMeet.listAllowed]
        | cons other others =>
          rw [Set.mem_inter_iff, PartialMeet.mem_listAllowed_cons, PartialMeet.mem_listAllowed_cons,
            PartialMeet.mem_listAllowed_cons, hinter, hletter, Set.mem_inter_iff, Set.mem_inter_iff]
          tauto
      rw [Layout.intersectLetters] at h
      split at h
      next heq => exact hpass l hdistinct (by rw [heq, Set.inter_self]) h
      next hne =>
        split at h
        next => cases h
        next hnew =>
          split at h
          next hl =>
            rw [hl] at hdistinct hnew hne
            have hfresh : r ∉ checked ++ '?' :: lhs := fun hm => hnew ⟨Ne.symm hne, hm⟩
            refine hpass r (hdistinct.replace hfresh) ?_ h
            rw [Set.inter_eq_right.mpr]
            exact fun _ _ => .inl hl
          next =>
            split at h
            next hr =>
              refine hpass l hdistinct ?_ h
              rw [Set.inter_eq_left.mpr]
              exact fun _ _ => .inl hr
            next => cases h

/-- Letters that cannot be intersected have no text that says what both say. -/
theorem intersectLetters_none {checked passed lhs rhs others : List Char} (hlength : lhs.length = rhs.length)
    (hpassed : passed ∈ PartialMeet.listAllowed letterAllowed checked)
    (hlhs : others ∈ PartialMeet.listAllowed letterAllowed lhs)
    (hrhs : others ∈ PartialMeet.listAllowed letterAllowed rhs)
    (h : Layout.intersectLetters checked lhs rhs = none) : ¬ Distinct (passed ++ others) := by
  induction lhs generalizing checked passed rhs others with
  | nil =>
    cases rhs with
    | nil =>
      rw [intersectLetters_nil] at h
      cases h
    | cons => cases hlength
  | cons l lhs ih =>
    cases rhs with
    | nil => cases hlength
    | cons r rhs =>
      cases others with
      | nil => exact absurd (PartialMeet.length_of_allowed hlhs) (by simp)
      | cons other others =>
        have hrest : lhs.length = rhs.length := Nat.succ.inj hlength
        obtain ⟨hl, hlhs⟩ := PartialMeet.mem_listAllowed_cons.mp hlhs
        obtain ⟨hr, hrhs⟩ := PartialMeet.mem_listAllowed_cons.mp hrhs
        have hpass : ∀ letter, other ∈ letterAllowed letter →
            Layout.intersectLetters (checked ++ [letter]) lhs rhs = none → ¬ Distinct (passed ++ other :: others) := by
          intro letter hletter hnext
          have hnone := ih hrest (mem_listAllowed_append hpassed (.cons hletter .nil)) hlhs hrhs hnext
          simpa using hnone
        rw [Layout.intersectLetters] at h
        split at h
        next => exact hpass l hl h
        next hne =>
          split at h
          next hfound =>
            obtain ⟨hr', hm⟩ := hfound
            have hother : other = r := hr.resolve_left hr'
            rw [hother]
            rcases List.mem_append.mp hm with hm | hm
            · exact not_distinct_of_mem (mem_of_allowed hpassed hm hr') List.mem_cons_self hr'
            · rcases List.mem_cons.mp hm with hm | hm
              · exact absurd hm.symm hne
              · have hagain := mem_of_allowed hlhs hm hr'
                intro hdistinct
                rcases (List.pairwise_cons.mp (List.pairwise_append.mp hdistinct).2.1).1 r hagain with heq | heq
                · exact hr' heq
                · exact heq rfl
          next =>
            split at h
            next => exact hpass r hr h
            next hl' =>
              split at h
              next => exact hpass l hl h
              next hr' => exact absurd ((hl.resolve_left hl').symm.trans (hr.resolve_left hr')) hne

theorem lettersMeet_some {lhs rhs result : List Char} (h : Distinct lhs) (hmeet : lettersMeet lhs rhs = some result) :
    Distinct result ∧ PartialMeet.listAllowed letterAllowed result =
      PartialMeet.listAllowed letterAllowed lhs ∩ PartialMeet.listAllowed letterAllowed rhs := by
  unfold lettersMeet at hmeet
  split at hmeet
  next => cases hmeet
  next hlength =>
    have hstart : Distinct ([] ++ lhs) := by rwa [List.nil_append]
    obtain ⟨letters, hresult, hdistinct, hinter⟩ := intersectLetters_some (not_not.mp hlength) hstart hmeet
    rw [List.nil_append] at hresult
    rw [hresult] at hdistinct ⊢
    exact ⟨hdistinct, hinter⟩

theorem partialMeet_letters : PartialMeet lettersMeet Distinct lettersAllowed := by
  have hself : ∀ letters, Distinct letters → letters ∈ lettersAllowed letters :=
    fun letters h => ⟨h, mem_listAllowed_self letters⟩
  constructor
  · exact fun letters h => ⟨letters, hself letters h⟩
  · intro letters others h h' heq
    have hfirst : letters ∈ lettersAllowed others := heq ▸ hself letters h
    have hsecond : others ∈ lettersAllowed letters := heq ▸ hself others h'
    exact listAllowed_antisymm hsecond.2 hfirst.2
  · exact fun lhs rhs result h _ hmeet => (lettersMeet_some h hmeet).1
  · intro lhs rhs result h _ hmeet
    unfold lettersAllowed
    rw [(lettersMeet_some h hmeet).2, Set.inter_inter_distrib_left]
  · intro lhs rhs _ _ hmeet
    rw [Set.eq_empty_iff_forall_notMem]
    intro others hothers
    obtain ⟨⟨hdistinct, hlhs⟩, _, hrhs⟩ := hothers
    unfold lettersMeet at hmeet
    split at hmeet
    next hlength =>
      exact hlength ((PartialMeet.length_of_allowed hlhs).symm.trans (PartialMeet.length_of_allowed hrhs))
    next hlength => exact intersectLetters_none (not_not.mp hlength) .nil hlhs hrhs hmeet hdistinct

theorem lettersMeet_length {lhs rhs result : List Char} (h : Distinct lhs) (hmeet : lettersMeet lhs rhs = some result) :
    result.length = lhs.length := by
  have hself := mem_listAllowed_self result
  rw [(lettersMeet_some h hmeet).2] at hself
  exact PartialMeet.length_of_allowed hself.1

end Letters

end ModelServer
