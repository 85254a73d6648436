import Mathlib.Data.List.Count
import Mathlib.Tactic.Common

namespace ModelServer

inductive Precision
  | BF16 | FP64 | FP32 | FP16 | I64 | I32 | I16 | I8 | I4 | U64 | U32 | U16 | U8 | U4 | U1 | BOOL | CUSTOM | UNDEFINED
  | DYNAMIC | MIXED | Q78 | BIN | STRING
deriving DecidableEq

/-- A dimension of any size, or of a size in a range. -/
structure Dimension where
  minimum : Int
  maximum : Int
  range : minimum = -1 ∧ maximum = -1 ∨ 0 ≤ minimum ∧ minimum ≤ maximum
deriving DecidableEq

namespace Dimension

def any : Dimension := ⟨-1, -1, .inl ⟨rfl, rfl⟩⟩

def static (value : Nat) : Dimension := ⟨value, value, .inr ⟨Int.natCast_nonneg value, Int.le_refl _⟩⟩

def isAny (dimension : Dimension) : Bool := dimension.maximum = -1 && dimension.minimum = -1

def isStatic (dimension : Dimension) : Bool := dimension.minimum = dimension.maximum && dimension.minimum ≠ -1

def getLowerBound (dimension : Dimension) : Int :=
  if dimension.isStatic then dimension.maximum else dimension.minimum

def getUpperBound (dimension : Dimension) : Int := dimension.maximum

/-- The dimension allows a size. -/
def «match» (dimension : Dimension) (value : Int) : Bool :=
  if value < -1 then false
  else if dimension.isAny then true
  else if dimension.isStatic then dimension.maximum = value
  else dimension.minimum ≤ value && value ≤ dimension.maximum

theorem getLowerBound_eq (dimension : Dimension) : dimension.getLowerBound = dimension.minimum := by
  unfold getLowerBound isStatic
  split
  next h =>
    simp only [Bool.and_eq_true, decide_eq_true_eq] at h
    exact h.1.symm
  next => rfl

theorem range_of_ne_any {dimension : Dimension} (h : dimension ≠ any) :
    0 ≤ dimension.minimum ∧ dimension.minimum ≤ dimension.maximum := by
  obtain ⟨minimum, maximum, hrange⟩ := dimension
  rcases hrange with ⟨rfl, rfl⟩ | hrange
  · exact absurd rfl h
  · exact hrange

/-- The smaller of two ranges that overlap is a range. -/
theorem range_intersection {dimension other : Dimension} (h : dimension ≠ any)
    (hle : ¬ min dimension.getUpperBound other.getUpperBound < max dimension.getLowerBound other.getLowerBound) :
    max dimension.getLowerBound other.getLowerBound = -1 ∧ min dimension.getUpperBound other.getUpperBound = -1 ∨
      0 ≤ max dimension.getLowerBound other.getLowerBound ∧
        max dimension.getLowerBound other.getLowerBound ≤ min dimension.getUpperBound other.getUpperBound := by
  obtain ⟨hpos, _⟩ := range_of_ne_any h
  rw [getLowerBound_eq] at hle ⊢
  omega

def createIntersection (dimension other : Dimension) : Option Dimension :=
  if hany : dimension = any then some other
  else if other = any then some dimension
  else if hempty : min dimension.getUpperBound other.getUpperBound <
      max dimension.getLowerBound other.getLowerBound then none
  else some ⟨max dimension.getLowerBound other.getLowerBound, min dimension.getUpperBound other.getUpperBound,
    range_intersection hany hempty⟩

end Dimension

/-- The dimensions of a tensor. -/
abbrev Shape := List Dimension

namespace Shape

/-- The shape allows the dimensions of a tensor. -/
def «match» : Shape → List Int → Bool
  | [], [] => true
  | dimension :: shape, value :: values => dimension.match value && Shape.match shape values
  | _, _ => false

def createIntersection : Shape → Shape → Option Shape
  | [], [] => some []
  | dimension :: shape, other :: others =>
    match dimension.createIntersection other with
    | none => none
    | some intersectedDim => (createIntersection shape others).map (intersectedDim :: ·)
  | _, _ => none

end Shape

/-- A text of letters for the dimensions, with the position of the batch in it. -/
structure Layout where
  text : List Char
  batchIndex : Option Nat
deriving DecidableEq

namespace Layout

def ALLOWED_DIMENSION_LETTERS : List Char := ['N', 'C', 'H', 'W', 'D']

def UNSPECIFIED_LAYOUT : List Char := ['.', '.', '.']

/-- The position of `...` in a text. -/
def findEtc : List Char → Option Nat
  | '.' :: '.' :: '.' :: _ => some 0
  | _ :: text => (findEtc text).map (· + 1)
  | [] => none

def containsEtc (text : List Char) : Bool := (findEtc text).isSome

/-- The dots stand together and there are three of them; what is given is how many there were, and whether they are the
last characters so far or were complete. -/
def dotsTogether : List Char → Nat → Bool → Bool → Bool
  | [], _, firstEtcAppeared, fullEtcAppeared => !(firstEtcAppeared && !fullEtcAppeared)
  | c :: text, dotCount, firstEtcAppeared, fullEtcAppeared =>
    if c = '.' then
      if fullEtcAppeared then false
      else if 3 ≤ dotCount + 1 then dotsTogether text (dotCount + 1) false true
      else dotsTogether text (dotCount + 1) true fullEtcAppeared
    else if firstEtcAppeared then false
    else dotsTogether text dotCount firstEtcAppeared fullEtcAppeared

def validate (text : List Char) : Bool :=
  text.all (fun c => decide (c ∈ ALLOWED_DIMENSION_LETTERS ∨ c = '.' ∨ c = '?')) &&
    ALLOWED_DIMENSION_LETTERS.all (fun c => decide (text.count c ≤ 1)) && dotsTogether text 0 false false

def retrieveBatchIndex (text : List Char) : Option Nat :=
  if !validate text then none
  else if text = UNSPECIFIED_LAYOUT then none
  else match text.findIdx? (· = 'N') with
    | none => none
    | some batchPos =>
      match findEtc text with
      | some etcPos => if etcPos < batchPos then none else some batchPos
      | none => some batchPos

/-- The constructor from a text. -/
def ofText (text : List Char) : Layout := ⟨text, retrieveBatchIndex text⟩

def getUnspecifiedLayout : Layout := ofText UNSPECIFIED_LAYOUT

/-- Unknown dimensions are written in the place of `...`. -/
def replaceEtc (unknownDimensions : Nat) : List Char → List Char
  | '.' :: '.' :: '.' :: text => List.replicate unknownDimensions '?' ++ text
  | c :: text => c :: replaceEtc unknownDimensions text
  | [] => []

/-- A text written out for a number of dimensions. -/
def writeOut (numberOfDimensions : Nat) (text : List Char) : Option (List Char) :=
  if containsEtc text then
    if numberOfDimensions < text.countP (· ≠ '.') then none
    else some (replaceEtc (numberOfDimensions - text.countP (· ≠ '.')) text)
  else some text

/-- The letters of `rhs` are written into those of `lhs`; `checked` are the letters of `lhs` that were passed. -/
def intersectLetters (checked : List Char) : List Char → List Char → Option (List Char)
  | l :: lhs, r :: rhs =>
    if l = r then intersectLetters (checked ++ [l]) lhs rhs
    else if r ≠ '?' ∧ r ∈ checked ++ l :: lhs then none
    else if l = '?' then intersectLetters (checked ++ [r]) lhs rhs
    else if r = '?' then intersectLetters (checked ++ [l]) lhs rhs
    else none
  | _, _ => some checked

/-- The intersection is made in a copy of the layout, and its batch index is kept. -/
def createIntersection (layout other : Layout) (numberOfDimensions : Nat) : Option Layout :=
  match writeOut numberOfDimensions layout.text, writeOut numberOfDimensions other.text with
  | some lhs, some rhs =>
    if lhs.length ≠ rhs.length ∨ lhs.length ≠ numberOfDimensions then none
    else (intersectLetters [] lhs rhs).map fun text => { layout with text := text }
  | _, _ => none

end Layout

structure TensorInfo where
  name : String
  mapping : String
  precision : Precision
  shape : Shape
  layout : Layout
  influencedByDemultiplexer : Bool := false
deriving DecidableEq

namespace TensorInfo

def getMappedName (tensor : TensorInfo) : String := if tensor.mapping = "" then tensor.name else tensor.mapping

def getUnspecifiedTensorInfo : TensorInfo where
  name := ""
  mapping := ""
  precision := .UNDEFINED
  shape := []
  layout := Layout.getUnspecifiedLayout

def isTensorUnspecified (tensor : TensorInfo) : Bool :=
  tensor.precision = .UNDEFINED && tensor.name = "" && tensor.shape = []

def isTensorSpecEqual (tensor other : TensorInfo) : Bool :=
  tensor.shape = other.shape && tensor.precision = other.precision && tensor.layout.text = other.layout.text

/-- The precision that two tensors have in common. -/
def intersectPrecision (precision other : Precision) : Option Precision :=
  if precision ≠ other then
    if precision = .UNDEFINED then some other
    else if other = .UNDEFINED then some precision
    else none
  else some precision

def createIntersection (tensor other : TensorInfo) : Option TensorInfo :=
  if tensor.isTensorUnspecified then some other
  else if other.isTensorUnspecified then some tensor
  else if tensor.name ≠ other.name ∨ tensor.getMappedName ≠ other.getMappedName then none
  else do
    let precision ← intersectPrecision tensor.precision other.precision
    let newShape ← tensor.shape.createIntersection other.shape
    let layout ← tensor.layout.createIntersection other.layout newShape.length
    return {
      name := tensor.name
      mapping := tensor.getMappedName
      precision := precision
      shape := newShape
      layout := layout }

def createCopyWithDemultiplexerDimensionPrefix (tensor : TensorInfo) (dim : Dimension) : TensorInfo :=
  { tensor with
    influencedByDemultiplexer := true
    shape := dim :: tensor.shape
    layout := .ofText ('N' :: match tensor.layout.text.findIdx? (· = 'N') with
      | none => tensor.layout.text
      | some batchPosition => tensor.layout.text.set batchPosition '?') }

end TensorInfo

end ModelServer
