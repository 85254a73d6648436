import ModelServer.TensorMeet

namespace ModelServer

section Write

instance : DecidablePred Distinct := fun letters => inferInstanceAs (Decidable (letters.Pairwise fun a b => a = '?' ∨ a ≠ b))

/-- A text of a layout in which no letter stands for two dimensions. -/
def Lettered (text : List Char) : Prop := Distinct (Layout.replaceEtc 0 text)

/-- The letters of a text that is written out for a number of dimensions. -/
def writeLetters (numberOfDimensions : Nat) (text : List Char) : Option (List Char) :=
  (Layout.writeOut numberOfDimensions text).bind fun letters =>
    if letters.length = numberOfDimensions ∧ Distinct letters then some letters else none

theorem mem_replaceEtc {unknownDimensions : Nat} {text : List Char} {letter : Char}
    (h : letter ∈ Layout.replaceEtc unknownDimensions text) : letter = '?' ∨ letter ∈ Layout.replaceEtc 0 text := by
  fun_induction Layout.replaceEtc unknownDimensions text with
  | case1 text =>
    rcases List.mem_append.mp h with hm | hm
    · exact .inl (List.eq_of_mem_replicate hm)
    · exact .inr (by simpa [Layout.replaceEtc] using hm)
  | case2 c text hetc ih =>
    rw [Layout.replaceEtc.eq_2 0 c text hetc]
    rcases List.mem_cons.mp h with rfl | hm
    · exact .inr List.mem_cons_self
    · exact (ih hm).imp_right (List.mem_cons_of_mem _)
  | case3 => exact absurd h List.not_mem_nil

theorem distinct_unknown (count : Nat) {letters : List Char} (h : Distinct letters) :
    Distinct (List.replicate count '?' ++ letters) := by
  refine List.pairwise_append.mpr ⟨?_, h, ?_⟩
  · exact List.pairwise_replicate.mpr (.inr (.inl rfl))
  · intro letter hm other _
    exact .inl (List.eq_of_mem_replicate hm)

theorem Lettered.replaceEtc {text : List Char} (h : Lettered text) (unknownDimensions : Nat) :
    Distinct (Layout.replaceEtc unknownDimensions text) := by
  unfold Lettered at h
  fun_induction Layout.replaceEtc unknownDimensions text with
  | case1 text =>
    apply distinct_unknown
    simpa [Layout.replaceEtc] using h
  | case2 c text hetc ih =>
    rw [Layout.replaceEtc.eq_2 0 c text hetc] at h
    obtain ⟨hfirst, hrest⟩ := List.pairwise_cons.mp h
    refine List.pairwise_cons.mpr ⟨?_, ih hrest⟩
    intro letter hm
    rcases mem_replaceEtc hm with hletter | hm
    · by_cases hc : c = '?'
      · exact .inl hc
      · exact .inr fun heq => hc (heq.trans hletter)
    · exact hfirst letter hm
  | case3 => exact .nil

theorem replaceEtc_of_findEtc {text : List Char} (unknownDimensions : Nat) (h : Layout.findEtc text = none) :
    Layout.replaceEtc unknownDimensions text = text := by
  fun_induction Layout.replaceEtc unknownDimensions text with
  | case1 text => simp [Layout.findEtc] at h
  | case2 c text hetc ih =>
    rw [Layout.findEtc.eq_2 c text hetc] at h
    rw [ih (Option.map_eq_none_iff.mp h)]
  | case3 => rfl

/-- Three dots are no letter that stands for one dimension. -/
theorem Distinct.findEtc {letters : List Char} (h : Distinct letters) : Layout.findEtc letters = none := by
  fun_induction Layout.findEtc letters with
  | case1 text =>
    have hdots := (List.pairwise_cons.mp h).1 '.' List.mem_cons_self
    simp at hdots
  | case2 c text hetc ih => rw [ih (List.pairwise_cons.mp h).2, Option.map_none]
  | case3 => rfl

theorem Lettered.writeOut {text letters : List Char} {numberOfDimensions : Nat} (h : Lettered text)
    (hwrite : Layout.writeOut numberOfDimensions text = some letters) : Distinct letters := by
  unfold Layout.writeOut at hwrite
  split at hwrite
  next =>
    split at hwrite
    next => cases hwrite
    next =>
      rw [← Option.some.inj hwrite]
      exact h.replaceEtc _
  next hetc =>
    have hnone : Layout.findEtc text = none := by simpa [Layout.containsEtc] using hetc
    unfold Lettered at h
    rw [replaceEtc_of_findEtc 0 hnone] at h
    rwa [← Option.some.inj hwrite]

theorem Distinct.lettered {letters : List Char} (h : Distinct letters) : Lettered letters := by
  unfold Lettered
  rwa [replaceEtc_of_findEtc 0 h.findEtc]

theorem Distinct.writeLetters {letters : List Char} (h : Distinct letters) :
    writeLetters letters.length letters = some letters := by
  have hwrite : Layout.writeOut letters.length letters = some letters := by
    simp [Layout.writeOut, Layout.containsEtc, h.findEtc]
  rw [ModelServer.writeLetters, hwrite, Option.bind_some, if_pos ⟨rfl, h⟩]

theorem writeLetters_eq {text letters : List Char} {numberOfDimensions : Nat} (h : Lettered text)
    (hwrite : Layout.writeOut numberOfDimensions text = some letters) :
    writeLetters numberOfDimensions text = if letters.length = numberOfDimensions then some letters else none := by
  rw [writeLetters, hwrite, Option.bind_some]
  simp [h.writeOut hwrite]

theorem writeLetters_some {text letters : List Char} {numberOfDimensions : Nat}
    (h : writeLetters numberOfDimensions text = some letters) :
    letters.length = numberOfDimensions ∧ Distinct letters := by
  obtain ⟨written, _, hif⟩ := Option.bind_eq_some_iff.mp h
  split at hif
  next hboth => rwa [← Option.some.inj hif]
  next => cases hif

/-- The texts of two layouts are intersected as the letters that they are written out to. -/
theorem createIntersection_text {layout other : Layout} (numberOfDimensions : Nat) (h : Lettered layout.text)
    (hother : Lettered other.text) : (layout.createIntersection other numberOfDimensions).map Layout.text =
      (writeLetters numberOfDimensions layout.text).bind fun lhs =>
        (writeLetters numberOfDimensions other.text).bind fun rhs => lettersMeet lhs rhs := by
  unfold Layout.createIntersection
  cases hlhs : Layout.writeOut numberOfDimensions layout.text with
  | none => simp [writeLetters, hlhs]
  | some lhs =>
    rw [writeLetters_eq h hlhs]
    cases hrhs : Layout.writeOut numberOfDimensions other.text with
    | none => simp [writeLetters, hrhs]
    | some rhs =>
      rw [writeLetters_eq hother hrhs]
      by_cases hlength : lhs.length = numberOfDimensions
      · by_cases hlength' : rhs.length = numberOfDimensions
        · rw [if_pos hlength, if_pos hlength']
          simp [hlength, hlength', lettersMeet, Option.map_map, Function.comp_def]
        · have hne : numberOfDimensions ≠ rhs.length := by omega
          simp [hlength, hlength', hne]
      · simp [hlength]

end Write

section Spec

/-- The precision, the shape and the text of the layout of a tensor. -/
abbrev TensorSpec := Precision × Shape × List Char

def TensorInfo.spec (tensor : TensorInfo) : TensorSpec := (tensor.precision, tensor.shape, tensor.layout.text)

/-- What a tensor of a precision and a shape, with letters for its dimensions, allows. -/
def specAllowed (spec : TensorSpec) : Set (Precision × List Int × List Char) :=
  spec.1.allowed ×ˢ spec.2.1.allowed ×ˢ lettersAllowed spec.2.2

def specMeet : TensorSpec → TensorSpec → Option TensorSpec :=
  PartialMeet.prodMeet TensorInfo.intersectPrecision (PartialMeet.prodMeet Shape.createIntersection lettersMeet)

/-- The letters stand one by one for the dimensions. -/
def SpecWritten (spec : TensorSpec) : Prop := (True ∧ True ∧ Distinct spec.2.2) ∧ spec.2.2.length = spec.2.1.length

def writeSpec (spec : TensorSpec) : Option TensorSpec :=
  (writeLetters spec.2.1.length spec.2.2).map fun letters => (spec.1, spec.2.1, letters)

theorem partialMeet_spec : PartialMeet specMeet SpecWritten specAllowed := by
  apply (PartialMeet.prod partialMeet_precision (PartialMeet.prod partialMeet_shape partialMeet_letters)).restrict
  intro spec other result hspec _ hmeet
  obtain ⟨⟨_, _, hdistinct⟩, hlength⟩ := hspec
  obtain ⟨_, hrest⟩ := PartialMeet.prodMeet_eq_some.mp hmeet
  obtain ⟨hshape, hletters⟩ := PartialMeet.prodMeet_eq_some.mp hrest
  rw [lettersMeet_length hdistinct hletters, hlength, (Shape.length_createIntersection hshape).1]

theorem writeSpec_written (spec written : TensorSpec) (h : writeSpec spec = some written) : SpecWritten written := by
  obtain ⟨letters, hletters, rfl⟩ := Option.map_eq_some_iff.mp h
  obtain ⟨hlength, hdistinct⟩ := writeLetters_some hletters
  exact ⟨⟨trivial, trivial, hdistinct⟩, hlength⟩

theorem SpecWritten.writeSpec (spec : TensorSpec) (h : SpecWritten spec) : writeSpec spec = some spec := by
  obtain ⟨⟨_, _, hdistinct⟩, hlength⟩ := h
  rw [ModelServer.writeSpec, ← hlength, hdistinct.writeLetters, Option.map_some]

/-- What a tensor is merged with another one to. -/
abbrev mergeSpec : TensorSpec → TensorSpec → Option TensorSpec := PartialMeet.merge specMeet writeSpec id

theorem isTensorSpecEqual_iff {tensor other : TensorInfo} :
    tensor.isTensorSpecEqual other = true ↔ tensor.spec = other.spec := by
  simp only [TensorInfo.isTensorSpecEqual, TensorInfo.spec, Bool.and_eq_true, decide_eq_true_eq, Prod.mk.injEq]
  tauto

theorem isTensorUnspecified_iff {tensor : TensorInfo} :
    tensor.isTensorUnspecified = true ↔ tensor.precision = .UNDEFINED ∧ tensor.name = "" ∧ tensor.shape = [] := by
  simp [TensorInfo.isTensorUnspecified, and_assoc]

/-- Two tensors of an input are intersected as what they are written out to. -/
theorem createIntersection_spec {tensor other : TensorInfo} (hspecified : tensor.isTensorUnspecified = false)
    (hspecified' : other.isTensorUnspecified = false) (hname : tensor.name = other.name)
    (hmapped : tensor.getMappedName = other.getMappedName) (hlettered : Lettered tensor.layout.text)
    (hlettered' : Lettered other.layout.text) :
    (tensor.createIntersection other).map TensorInfo.spec =
      (writeSpec tensor.spec).bind fun a => (writeSpec other.spec).bind fun b => specMeet a b := by
  have hnames : ¬ (tensor.name ≠ other.name ∨ tensor.getMappedName ≠ other.getMappedName) := by
    simp [hname, hmapped]
  unfold TensorInfo.createIntersection
  rw [hspecified, hspecified', if_neg Bool.false_ne_true, if_neg Bool.false_ne_true, if_neg hnames]
  unfold writeSpec specMeet TensorInfo.spec
  cases hprecision : TensorInfo.intersectPrecision tensor.precision other.precision with
  | none =>
    cases writeLetters tensor.shape.length tensor.layout.text <;>
      cases writeLetters other.shape.length other.layout.text <;> simp [PartialMeet.prodMeet, hprecision]
  | some precision =>
    cases hshape : tensor.shape.createIntersection other.shape with
    | none =>
      cases writeLetters tensor.shape.length tensor.layout.text <;>
        cases writeLetters other.shape.length other.layout.text <;> simp [PartialMeet.prodMeet, hshape]
    | some newShape =>
      obtain ⟨hlength, hlength'⟩ := Shape.length_createIntersection hshape
      have htext := createIntersection_text newShape.length hlettered hlettered'
      -- with the precision and the shape the layout decides
      have hlayout : ∀ layout : Option Layout,
          (layout.bind fun layout => some (TensorInfo.mk tensor.name tensor.getMappedName precision newShape layout false)).map
            (fun result => (result.precision, result.shape, result.layout.text)) =
          (layout.map Layout.text).map fun letters => (precision, newShape, letters) := by
        intro layout
        cases layout <;> rfl
      simp only [Option.bind_eq_bind, Option.bind_some, hlength, hlength']
      refine (hlayout _).trans ?_
      rw [htext]
      cases writeLetters newShape.length tensor.layout.text <;>
        cases writeLetters newShape.length other.layout.text <;> simp [PartialMeet.prodMeet, hprecision, hshape, Function.comp_def]

/-- A tensor that stands for an input under its name. -/
structure InputTensor (name : String) (tensor : TensorInfo) : Prop where
  named : tensor.name = name
  mapped : tensor.getMappedName = name
  specified : tensor.isTensorUnspecified = false
  lettered : Lettered tensor.layout.text

/-- A tensor is merged into another one of the same input. -/
def mergeTensor (tensor other : TensorInfo) : Option TensorInfo :=
  if tensor.isTensorSpecEqual other then some other else tensor.createIntersection other

variable {name : String} {tensor other result : TensorInfo}

theorem InputTensor.mergeTensor_spec (h : InputTensor name tensor) (h' : InputTensor name other) :
    (mergeTensor tensor other).map TensorInfo.spec = mergeSpec tensor.spec other.spec := by
  unfold mergeTensor mergeSpec PartialMeet.merge
  by_cases heq : tensor.spec = other.spec
  · rw [if_pos (isTensorSpecEqual_iff.mpr heq), if_pos heq, Option.map_some]
  · rw [if_neg fun hequal => heq (isTensorSpecEqual_iff.mp hequal), if_neg heq,
      createIntersection_spec h.specified h'.specified (h.named.trans h'.named.symm) (h.mapped.trans h'.mapped.symm)
        h.lettered h'.lettered]
    simp

theorem createIntersection_some (hspecified : tensor.isTensorUnspecified = false)
    (hspecified' : other.isTensorUnspecified = false) (h : tensor.createIntersection other = some result) :
    result.name = tensor.name ∧ result.mapping = tensor.getMappedName ∧
      TensorInfo.intersectPrecision tensor.precision other.precision = some result.precision ∧
      tensor.shape.createIntersection other.shape = some result.shape ∧
      result.layout.batchIndex = tensor.layout.batchIndex := by
  unfold TensorInfo.createIntersection at h
  rw [hspecified, hspecified', if_neg Bool.false_ne_true, if_neg Bool.false_ne_true] at h
  split at h
  next => cases h
  next =>
    obtain ⟨precision, hprecision, h⟩ := Option.bind_eq_some_iff.mp h
    obtain ⟨newShape, hshape, h⟩ := Option.bind_eq_some_iff.mp h
    obtain ⟨layout, hlayout, h⟩ := Option.bind_eq_some_iff.mp h
    cases h
    refine ⟨rfl, rfl, hprecision, hshape, ?_⟩
    unfold Layout.createIntersection at hlayout
    split at hlayout
    next =>
      split at hlayout
      next => cases hlayout
      next =>
        obtain ⟨text, _, hresult⟩ := Option.map_eq_some_iff.mp hlayout
        rw [← hresult]
    next => cases hlayout

theorem InputTensor.createIntersection (h : InputTensor name tensor) (h' : InputTensor name other)
    (hresult : tensor.createIntersection other = some result) : InputTensor name result := by
  obtain ⟨hname, hmapping, hprecision, hshape, _⟩ := createIntersection_some h.specified h'.specified hresult
  have hspec := createIntersection_spec h.specified h'.specified (h.named.trans h'.named.symm)
    (h.mapped.trans h'.mapped.symm) h.lettered h'.lettered
  rw [hresult, Option.map_some] at hspec
  constructor
  · exact hname.trans h.named
  · unfold TensorInfo.getMappedName
    rw [hmapping, h.mapped, hname, h.named, ite_self]
  · -- a tensor that says nothing comes from one that says nothing
    by_contra hunspecified
    obtain ⟨hundefined, hempty, hnil⟩ := isTensorUnspecified_iff.mp (Bool.eq_true_of_not_eq_false hunspecified)
    have hnone : tensor.precision = .UNDEFINED := by
      rcases intersectPrecision_eq_some hprecision with ⟨hsame, _⟩ | ⟨_, hsame⟩
      · exact hsame.symm.trans hundefined
      · exact hsame
    have hlength := (Shape.length_createIntersection hshape).1
    rw [hnil] at hlength
    have hunspecified' : tensor.isTensorUnspecified = true :=
      isTensorUnspecified_iff.mpr ⟨hnone, hname.symm.trans hempty, List.length_eq_zero_iff.mp hlength⟩
    rw [h.specified] at hunspecified'
    cases hunspecified'
  · obtain ⟨a, ha, hrest⟩ := Option.bind_eq_some_iff.mp hspec.symm
    obtain ⟨b, hb, hmeet⟩ := Option.bind_eq_some_iff.mp hrest
    have hwritten := partialMeet_spec.closed a b _ (writeSpec_written _ _ ha) (writeSpec_written _ _ hb) hmeet
    exact Distinct.lettered hwritten.1.2.2

theorem InputTensor.mergeTensor (h : InputTensor name tensor) (h' : InputTensor name other)
    (hresult : mergeTensor tensor other = some result) : InputTensor name result ∧
      (result.layout.batchIndex = tensor.layout.batchIndex ∨ result.layout.batchIndex = other.layout.batchIndex) := by
  unfold ModelServer.mergeTensor at hresult
  split at hresult
  next =>
    cases hresult
    exact ⟨h', .inr rfl⟩
  next =>
    obtain ⟨_, _, _, _, hbatch⟩ := createIntersection_some h.specified h'.specified hresult
    exact ⟨h.createIntersection h' hresult, .inl hbatch⟩

end Spec

end ModelServer
