import ModelServer.ByteStrings
import ModelServer.ReloadModel
import ModelServer.Separators

namespace ModelServer.FileSystem

open Separators

def isPathEscaped (path : Str) : Bool :=
  let lhs := find path (bytes "../") 0
  let rhs := find path (bytes "/..") 0
  let escapedLinux := lhs == some 0 || rhs == some (path.length - 3) || (find path (bytes "/../") 0).isSome
  let lhs := find path (bytes "..\\") 0
  let rhs := find path (bytes "\\..") 0
  escapedLinux || lhs == some 0 || rhs == some (path.length - 3) || (find path (bytes "\\..\\") 0).isSome

/-- `is_directory` is what `std::filesystem` answers. -/
def dirExists (is_directory : Str → Bool) (path : Str) : Bool :=
  if isPathEscaped path then false else is_directory path

/-- A status that is not OK; `other` is one that a file system returns. -/
inductive StatusCode
  | PATH_INVALID
  | FILE_INVALID
  | other (code : Nat)
deriving DecidableEq

/-- What the file system under a base path answers. -/
structure Listing where
  isDirectory : Str → Except StatusCode Bool
  getDirectorySubdirs : Str → Except StatusCode (List (List Char))
  is_regular_file : Str → Bool
  extension : Str → Str

def S3_URL_PREFIX : Str := bytes "s3://"

def GCS_URL_PREFIX : Str := bytes "gs://"

def AZURE_URL_FILE_PREFIX : Str := bytes "azfs://"

def AZURE_URL_BLOB_PREFIX : Str := bytes "az://"

def isLocalFilesystem (basePath : Str) : Bool :=
  !([ S3_URL_PREFIX, GCS_URL_PREFIX, AZURE_URL_FILE_PREFIX, AZURE_URL_BLOB_PREFIX].any (·.isPrefixOf basePath))

def supportedSingleFileModelExtensions : List Str :=
  [".xml", ".onnx", ".pdmodel", ".pdiparams", ".pb", ".tflite"].map bytes

/-- The versions under a base path: those its directories name, or version 1 of a single model file. -/
def readAvailableVersions (fs : Listing) (base : Str) : Except StatusCode (List Int) := do
  if isPathEscaped base then throw .PATH_INVALID
  let is_directory ← fs.isDirectory base
  if !is_directory then
    if isLocalFilesystem base && fs.is_regular_file base then
      if !supportedSingleFileModelExtensions.contains (fs.extension base) then throw .FILE_INVALID
      return [1]
    throw .PATH_INVALID
  let dirs ← fs.getDirectorySubdirs base
  return Model.readAvailableVersions dirs

def parent : Str := bytes ".."

def separators : List Byte := [char '/', char '\\']

def HasParentReference (path : Str) : Prop := ∃ separator ∈ separators, parent ∈ path.splitOn separator

/-- Levels below the directory a path starts from; `none` where a component led out of it. -/
def descend (depth : Option Nat) (component : Str) : Option Nat :=
  match depth with
  | none => none
  | some depth =>
    if component = parent then (if depth = 0 then none else some (depth - 1))
    else if component = [] ∨ component = bytes "." then some depth
    else some (depth + 1)

def LeavesBase (separator : Byte) (path : Str) : Prop := (path.splitOn separator).foldl descend (some 0) = none

/-- A path on which the check says exactly whether there is a parent reference, so that no accepted one leads out. -/
structure EscapeDetected (path : Str) : Prop where
  exact : isPathEscaped path = true ↔ HasParentReference path
  dirExists : ∀ is_directory, dirExists is_directory path = true → ∀ separator ∈ separators, ¬ LeavesBase separator path
  readAvailableVersions : ∀ fs versions, readAvailableVersions fs path = .ok versions →
    ∀ separator ∈ separators, ¬ LeavesBase separator path

/-- A `..` with a separator behind it, or a last one that no component between the first and it begins like. -/
def Exposed (separator : Byte) (path : Str) : Prop :=
  parent ∈ (path.splitOn separator).dropLast ∨
    ∃ first before, path.splitOn separator = first :: (before ++ [parent]) ∧
      ∀ component ∈ before, ¬ parent <+: component

/-- The three searches that are made for one separator. -/
def escapes (separator : Byte) (path : Str) : Bool :=
  find path (parent ++ [separator]) 0 == some 0 || find path (separator :: parent) 0 == some (path.length - 3) ||
    (find path (separator :: (parent ++ [separator])) 0).isSome

theorem isPathEscaped_eq (path : Str) : isPathEscaped path = (escapes (char '/') path || escapes (char '\\') path) := by
  simp only [isPathEscaped, escapes, Bool.or_assoc]
  rfl

theorem isPathEscaped_iff (path : Str) : isPathEscaped path = true ↔ ∃ separator ∈ separators, escapes separator path = true := by
  rw [isPathEscaped_eq, Bool.or_eq_true]
  simp [separators]

theorem find_zero (path tag : Str) : find path tag 0 = Occurrence.indexOf? tag path := by
  simp [find]

theorem find_eq_zero_iff {path tag : Str} (htag : tag ≠ []) : find path tag 0 = some 0 ↔ tag <+: path := by
  rw [find_eq_some_iff htag]
  constructor
  · exact fun h => h.2.1
  · exact fun h => ⟨Nat.le_refl 0, h, fun j _ hj => absurd hj (Nat.not_lt_zero j)⟩

theorem find_isSome_iff {path tag : Str} (htag : tag ≠ []) : (find path tag 0).isSome ↔ tag <:+: path := by
  rw [Occurrence.infix_iff_at, Option.isSome_iff_ne_none, ne_eq, find_eq_none_iff htag]
  simp

section Components

variable {separator : Byte} (hparent : separator ∉ parent) {first : Str} {rest : List Str} (hfirst : separator ∉ first)
  (hrest : ∀ component ∈ rest, separator ∉ component)
include hparent hfirst hrest

theorem ends_with_parent_iff : find (joined separator first rest) (separator :: parent) 0 =
      some ((joined separator first rest).length - 3) ↔
    ∃ before, rest = before ++ [parent] ∧ ∀ component ∈ before, ¬ parent <+: component := by
  have hsize : parent.length = 2 := rfl
  rw [find_zero]
  by_cases hlen : 3 ≤ (joined separator first rest).length
  · exact indexOf?_last hparent hfirst hrest (by omega)
  · constructor
    · intro h
      have hat := ((Occurrence.indexOf?_eq_some_iff (List.cons_ne_nil _ _)).mp h).1
      have hle := hat.length_le (List.cons_ne_nil _ _)
      rw [List.length_cons] at hle
      omega
    · intro h
      obtain ⟨before, hbefore, -⟩ := h
      rw [hbefore, joined_snoc, List.length_append, List.length_cons] at hlen
      omega

theorem parent_between_iff : (find (joined separator first rest) (separator :: (parent ++ [separator])) 0).isSome ↔
    parent ∈ rest.dropLast := by
  rw [find_isSome_iff (List.cons_ne_nil _ _), infix_joined hfirst hrest]
  constructor
  · intro h
    obtain ⟨before, component, after, heq, hprefix⟩ := h
    obtain ⟨hcomponent, hafter⟩ := (prefix_sep_joined hparent (hrest component (by simp [heq]))).mp hprefix
    rw [heq, List.dropLast_append_of_ne_nil (List.cons_ne_nil _ _), List.dropLast_cons_of_ne_nil hafter, hcomponent]
    simp
  · intro h
    obtain ⟨before, after, heq⟩ := List.append_of_mem h
    have hne : rest ≠ [] := fun hnil => by simp [hnil] at h
    have hsplit : rest = before ++ parent :: (after ++ [rest.getLast hne]) := by
      rw [← List.cons_append, ← List.append_assoc, ← heq, List.dropLast_append_getLast]
    refine ⟨before, parent, _, hsplit, ?_⟩
    exact (prefix_sep_joined hparent hparent).mpr ⟨rfl, by simp⟩

theorem escapes_iff : escapes separator (joined separator first rest) = true ↔ Exposed separator (joined separator first rest) := by
  rw [escapes, Bool.or_eq_true, Bool.or_eq_true, beq_iff_eq, beq_iff_eq, find_eq_zero_iff (by simp),
    prefix_sep_joined hparent hfirst, ends_with_parent_iff hparent hfirst hrest, parent_between_iff hparent hfirst hrest,
    Exposed, splitOn_joined hfirst hrest]
  have hlast : (∃ other before, first :: rest = other :: (before ++ [parent]) ∧ ∀ component ∈ before, ¬ parent <+: component) ↔
      ∃ before, rest = before ++ [parent] ∧ ∀ component ∈ before, ¬ parent <+: component := by
    simp
  have hinner : parent ∈ (first :: rest).dropLast ↔ (parent = first ∧ rest ≠ []) ∨ parent ∈ rest.dropLast := by
    cases rest with
    | nil => simp
    | cons component rest =>
      rw [List.dropLast_cons_of_ne_nil (List.cons_ne_nil _ _), List.mem_cons]
      simp
  rw [hlast, hinner, or_right_comm]

end Components

theorem parent_free {separator : Byte} (h : separator ∈ separators) : separator ∉ parent := by
  rcases List.mem_cons.mp h with rfl | h
  · decide
  · rw [List.mem_singleton.mp h]
    decide

theorem isPathEscaped_iff_exposed (path : Str) :
    isPathEscaped path = true ↔ ∃ separator ∈ separators, Exposed separator path := by
  rw [isPathEscaped_iff]
  refine exists_congr fun separator => and_congr_right fun hseparator => ?_
  obtain ⟨first, rest, hpath, hfirst, hrest⟩ := exists_joined separator path
  rw [← hpath]
  exact escapes_iff (parent_free hseparator) hfirst hrest

theorem Exposed.mem {separator : Byte} {path : Str} (h : Exposed separator path) : parent ∈ path.splitOn separator := by
  rcases h with hinner | ⟨first, before, hlast, -⟩
  · exact List.mem_of_mem_dropLast hinner
  · rw [hlast]
    simp

theorem stays_below {components : List Str} (h : parent ∉ components) (depth : Nat) :
    components.foldl descend (some depth) ≠ none := by
  induction components generalizing depth with
  | nil => simp
  | cons component components ih =>
    have hne : component ≠ parent := fun heq => h (by simp [heq])
    have hlater := ih fun hmem => h (by simp [hmem])
    rw [List.foldl_cons, descend, if_neg hne]
    split
    · exact hlater depth
    · exact hlater (depth + 1)

theorem dirExists_accepts {is_directory : Str → Bool} {path : Str} (h : dirExists is_directory path = true) :
    isPathEscaped path = false := by
  rw [dirExists] at h
  split at h
  next => cases h
  next haccepted => exact Bool.eq_false_of_not_eq_true haccepted

theorem readAvailableVersions_accepts {fs : Listing} {path : Str} {versions : List Int}
    (h : readAvailableVersions fs path = .ok versions) : isPathEscaped path = false := by
  by_contra hescaped
  rw [Bool.not_eq_false] at hescaped
  simp only [readAvailableVersions, hescaped] at h
  cases h

/-- The check is right exactly where there is no parent reference or one of them is exposed. -/
theorem escape_detected_iff (path : Str) :
    EscapeDetected path ↔ ¬ HasParentReference path ∨ ∃ separator ∈ separators, Exposed separator path := by
  have stays (hexact : isPathEscaped path = true ↔ HasParentReference path) (haccepted : isPathEscaped path = false) :
      ∀ separator ∈ separators, ¬ LeavesBase separator path := by
    intro separator hseparator hleaves
    refine stays_below ?_ 0 hleaves
    intro hmem
    rw [hexact.mpr ⟨separator, hseparator, hmem⟩] at haccepted
    cases haccepted
  constructor
  · intro h
    by_cases hreference : HasParentReference path
    · exact .inr ((isPathEscaped_iff_exposed path).mp (h.exact.mpr hreference))
    · exact .inl hreference
  · intro h
    have hexact : isPathEscaped path = true ↔ HasParentReference path := by
      rw [isPathEscaped_iff_exposed]
      constructor
      · intro hexposed
        obtain ⟨separator, hseparator, hexposed⟩ := hexposed
        exact ⟨separator, hseparator, hexposed.mem⟩
      · exact fun hreference => h.resolve_left (not_not_intro hreference)
    exact ⟨hexact, fun _ haccepted => stays hexact (dirExists_accepts haccepted),
      fun _ _ haccepted => stays hexact (readAvailableVersions_accepts haccepted)⟩

/-- A component that begins with two dots hides the parent reference at the end. -/
theorem escape_missed : ¬ EscapeDetected (bytes "/models/..cache/..") := by
  intro h
  have hmissed : isPathEscaped (bytes "/models/..cache/..") = false := by decide
  have hreference : HasParentReference (bytes "/models/..cache/..") := ⟨char '/', by decide, by decide⟩
  rw [h.exact.mpr hreference] at hmissed
  cases hmissed

end ModelServer.FileSystem
