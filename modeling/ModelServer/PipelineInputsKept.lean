import ModelServer.PipelineInputsInfo
import ModelServer.TensorMerge

namespace ModelServer.PipelineDefinition

section Keep

/-- What becomes of the tensor of an input when a node or an output takes the input: the tensor of a node is merged, and
an output only puts in a tensor that says nothing. -/
def keep (name : String) (kept : Option TensorInfo) : Option TensorInfo → Option (Option TensorInfo)
  | some tensor =>
    match kept with
    | some found => (mergeTensor found (tensor.aliased name)).map some
    | none => some (some (tensor.aliased name))
  | none =>
    match kept with
    | some found => some (some found)
    | none => some (some TensorInfo.getUnspecifiedTensorInfo)

/-- What the tensors of the nodes say that take an input. -/
def specs (events : List (Option TensorInfo)) : List TensorSpec := (events.filterMap id).map TensorInfo.spec

theorem mem_specs {events : List (Option TensorInfo)} {spec : TensorSpec} :
    spec ∈ specs events ↔ ∃ tensor, some tensor ∈ events ∧ tensor.spec = spec := by
  simp [specs]

/-- The tensor that an input has, once the nodes and the outputs that take it have been looked at. -/
inductive Kept (name : String) (events : List (Option TensorInfo)) : Option TensorInfo → Prop
  | nothing : events = [] → Kept name events none
  | unspecified : events ≠ [] → (∀ tensor, some tensor ∉ events) →
      Kept name events (some TensorInfo.getUnspecifiedTensorInfo)
  | tensor {tensor : TensorInfo} : InputTensor name tensor →
      PartialMeet.Merged writeSpec id SpecWritten specAllowed (specs events) tensor.spec →
      (∃ other, some other ∈ events ∧ tensor.layout.batchIndex = other.layout.batchIndex) →
      Kept name events (some tensor)

variable {name : String} {events events' seen rest : List (Option TensorInfo)} {kept kept' : Option TensorInfo}
  {event : Option TensorInfo}

/-- A tensor that says nothing is replaced. -/
theorem mergeTensor_unspecified (tensor : TensorInfo) :
    mergeTensor TensorInfo.getUnspecifiedTensorInfo tensor = some tensor := by
  unfold mergeTensor
  split
  next => rfl
  next =>
    unfold TensorInfo.createIntersection
    rw [if_pos (by decide)]

theorem Kept.first {tensor : TensorInfo} (h : InputTensor name (tensor.aliased name)) (hm : some tensor ∈ events)
    (hall : ∀ other, some other ∈ events → other = tensor) : Kept name events (some (tensor.aliased name)) := by
  refine .tensor h (.same (mem_specs.mpr ⟨tensor, hm, rfl⟩) ?_) ⟨tensor, hm, rfl⟩
  intro spec hspec
  obtain ⟨other, hother, rfl⟩ := mem_specs.mp hspec
  rw [hall other hother]
  rfl

theorem Kept.step (h : Kept name seen kept) (hall : ∀ tensor, some tensor ∈ seen ++ [event] → InputTensor name (tensor.aliased name)) :
    match keep name kept event with
    | some kept => Kept name (seen ++ [event]) kept
    | none => PartialMeet.Conflict writeSpec specAllowed (specs (seen ++ [event])) := by
  cases event with
  | none =>
    cases h with
    | nothing hnil =>
      rw [hnil]
      exact .unspecified (by simp) (by simp)
    | unspecified _ hnone => exact .unspecified (by simp) (by simpa using hnone)
    | tensor hinput hmerged hbatch =>
      obtain ⟨other, hother, heq⟩ := hbatch
      refine .tensor hinput (hmerged.congr fun spec => ?_) ⟨other, List.mem_append_left _ hother, heq⟩
      simp [mem_specs]
  | some tensor =>
    have hlast : some tensor ∈ seen ++ [some tensor] := List.mem_append_right _ List.mem_cons_self
    have hnew := hall tensor hlast
    cases h with
    | nothing hnil =>
      rw [hnil]
      exact .first hnew (by simp) (by simp)
    | unspecified _ hnone =>
      unfold keep
      simp only [mergeTensor_unspecified, Option.map_some]
      refine .first hnew hlast fun other hother => ?_
      rcases List.mem_append.mp hother with hother | hother
      · exact absurd hother (hnone other)
      · exact Option.some.inj (List.mem_singleton.mp hother)
    | @tensor found hinput hmerged hbatch =>
      have hspec := hinput.mergeTensor_spec hnew
      have hmem : ∀ spec, spec ∈ tensor.spec :: specs seen ↔ spec ∈ specs (seen ++ [some tensor]) := by
        intro spec
        simp [specs, or_comm, eq_comm]
      have hkeep : keep name (some found) (some tensor) = (mergeTensor found (tensor.aliased name)).map some := rfl
      rw [hkeep]
      cases hresult : mergeTensor found (tensor.aliased name) with
      | none =>
        rw [hresult, Option.map_none] at hspec
        have hconflict := hmerged.merge_none partialMeet_spec writeSpec_written SpecWritten.writeSpec hspec.symm
        exact hconflict.mono fun spec hm => (hmem spec).mp hm
      | some result =>
        rw [hresult, Option.map_some] at hspec
        have hnext := hmerged.merge partialMeet_spec writeSpec_written SpecWritten.writeSpec hspec.symm
        obtain ⟨hkept, hsame⟩ := hinput.mergeTensor hnew hresult
        refine .tensor hkept (hnext.congr hmem) ?_
        rcases hsame with hsame | hsame
        · obtain ⟨other, hother, heq⟩ := hbatch
          exact ⟨other, List.mem_append_left _ hother, hsame.trans heq⟩
        · exact ⟨tensor, hlast, hsame⟩

theorem Kept.foldlM (h : Kept name seen kept)
    (hall : ∀ tensor, some tensor ∈ seen ++ rest → InputTensor name (tensor.aliased name)) :
    match rest.foldlM (keep name) kept with
    | some kept => Kept name (seen ++ rest) kept
    | none => PartialMeet.Conflict writeSpec specAllowed (specs (seen ++ rest)) := by
  induction rest generalizing seen kept with
  | nil =>
    rw [List.append_nil]
    exact h
  | cons event rest ih =>
    have hassoc : seen ++ event :: rest = seen ++ [event] ++ rest := by simp
    rw [hassoc] at hall ⊢
    have hstep := h.step fun tensor hm => hall tensor (List.mem_append_left _ hm)
    rw [List.foldlM_cons]
    cases hnext : keep name kept event with
    | some next =>
      rw [hnext] at hstep
      exact ih hstep hall
    | none =>
      rw [hnext] at hstep
      refine PartialMeet.Conflict.mono hstep fun spec hm => ?_
      obtain ⟨tensor, hm, heq⟩ := mem_specs.mp hm
      exact mem_specs.mpr ⟨tensor, List.mem_append_left _ hm, heq⟩

theorem foldlM_keep (hall : ∀ tensor, some tensor ∈ events → InputTensor name (tensor.aliased name)) :
    match events.foldlM (keep name) none with
    | some kept => Kept name events kept
    | none => PartialMeet.Conflict writeSpec specAllowed (specs events) :=
  Kept.foldlM (.nothing rfl) hall

theorem specs_congr (hsame : ∀ event, event ∈ events ↔ event ∈ events') (spec : TensorSpec) :
    spec ∈ specs events ↔ spec ∈ specs events' := by
  simp [mem_specs, hsame]

/-- The tensor of an input does not depend on the order of what takes the input. -/
theorem Kept.unique (h : Kept name events kept) (h' : Kept name events' kept')
    (hsame : ∀ event, event ∈ events ↔ event ∈ events') : kept.map TensorInfo.spec = kept'.map TensorInfo.spec := by
  cases h with
  | nothing hnil =>
    have hnil' : events' = [] := List.eq_nil_iff_forall_not_mem.mpr fun event hm => by simpa [hnil] using (hsame event).mpr hm
    cases h' with
    | nothing => rfl
    | unspecified hne => exact absurd hnil' hne
    | tensor _ _ hbatch =>
      obtain ⟨other, hother, _⟩ := hbatch
      rw [hnil'] at hother
      exact absurd hother List.not_mem_nil
  | unspecified hne hnone =>
    cases h' with
    | nothing hnil' =>
      have hnil : events = [] := List.eq_nil_iff_forall_not_mem.mpr fun event hm => by simpa [hnil'] using (hsame event).mp hm
      exact absurd hnil hne
    | unspecified => rfl
    | tensor _ _ hbatch =>
      obtain ⟨other, hother, _⟩ := hbatch
      exact absurd ((hsame _).mpr hother) (hnone other)
  | tensor _ hmerged hbatch =>
    obtain ⟨other, hother, _⟩ := hbatch
    have hother' := (hsame _).mp hother
    cases h' with
    | nothing hnil' =>
      rw [hnil'] at hother'
      exact absurd hother' List.not_mem_nil
    | unspecified _ hnone => exact absurd hother' (hnone other)
    | tensor _ hmerged' _ =>
      rw [Option.map_some, Option.map_some]
      exact congrArg some ((hmerged.congr (specs_congr hsame)).unique hmerged' partialMeet_spec)

theorem Kept.not_conflict (h : Kept name events kept) (hsame : ∀ event, event ∈ events ↔ event ∈ events') :
    ¬ PartialMeet.Conflict writeSpec specAllowed (specs events') := by
  intro hconflict
  obtain ⟨spec, hspec, _⟩ := hconflict.2
  obtain ⟨tensor, htensor, _⟩ := mem_specs.mp hspec
  have htensor' := (hsame _).mpr htensor
  cases h with
  | nothing hnil =>
    rw [hnil] at htensor'
    exact absurd htensor' List.not_mem_nil
  | unspecified _ hnone => exact hnone tensor htensor'
  | tensor _ hmerged => exact (hmerged.congr (specs_congr hsame)).not_conflict partialMeet_spec hconflict

/-- The shape of an input allows what the shapes of all nodes allow that take the input. -/
theorem Kept.match_iff {tensor other : TensorInfo} (h : Kept name events (some tensor)) (hother : some other ∈ events)
    (values : List Int) :
    tensor.shape.match values = true ↔ ∀ fed, some fed ∈ events → fed.shape.match values = true := by
  cases h with
  | unspecified _ hnone => exact absurd hother (hnone other)
  | tensor _ hmerged =>
    generalize hspec : tensor.spec = spec at hmerged
    cases hmerged with
    | same hm hall =>
      obtain ⟨fed, hfed, heq⟩ := mem_specs.mp hm
      have hshape : ∀ fed', some fed' ∈ events → fed'.shape = tensor.shape := by
        intro fed' hfed'
        have hsame := hall _ (mem_specs.mpr ⟨fed', hfed', rfl⟩)
        rw [← hspec] at hsame
        exact congrArg (fun spec : TensorSpec => spec.2.1) hsame
      constructor
      · intro hmatch fed' hfed'
        rwa [hshape fed' hfed']
      · intro hall
        rw [← hshape fed hfed]
        exact hall fed hfed
    | @met a hvalid hallowed =>
      have hshape : tensor.shape = a.2.1 := congrArg (fun spec : TensorSpec => spec.2.1) hspec
      obtain ⟨⟨precision, values', letters⟩, hmember⟩ := partialMeet_spec.nonempty a hvalid
      have hwritten : ∀ fed, some fed ∈ events → ∃ b, writeSpec fed.spec = some b ∧
          (precision, values', letters) ∈ specAllowed b ∧ b.2.1 = fed.shape := by
        intro fed hfed
        rw [hallowed] at hmember
        obtain ⟨b, hb, hin⟩ := hmember fed.spec (mem_specs.mpr ⟨fed, hfed, rfl⟩)
        obtain ⟨_, _, rfl⟩ := Option.map_eq_some_iff.mp hb
        exact ⟨_, hb, hin, rfl⟩
      -- the precision and the letters are kept, and the dimensions are replaced
      have hall : (precision, values, letters) ∈ specAllowed a ↔
          ∀ fed, some fed ∈ events → fed.shape.match values = true := by
        rw [hallowed]
        constructor
        · intro hin fed hfed
          obtain ⟨b, hb, _, hb'⟩ := hwritten fed hfed
          obtain ⟨b', hb'', hin'⟩ := hin fed.spec (mem_specs.mpr ⟨fed, hfed, rfl⟩)
          rw [Option.some.inj (hb''.symm.trans hb)] at hin'
          rw [← hb', ← Shape.mem_allowed]
          exact hin'.2.1
        · intro hin spec hm
          obtain ⟨fed, hfed, rfl⟩ := mem_specs.mp hm
          obtain ⟨b, hb, hin', hb'⟩ := hwritten fed hfed
          refine ⟨b, hb, hin'.1, ?_, hin'.2.2⟩
          rw [hb', Shape.mem_allowed]
          exact hin fed hfed
      rw [← hall, hshape, ← Shape.mem_allowed]
      exact ⟨fun hin => ⟨hmember.1, hin, hmember.2.2⟩, fun hin => hin.2.1⟩

end Keep

end ModelServer.PipelineDefinition
