import Mathlib.Data.Finset.Card
import ModelServer.RowMajor

namespace ModelServer

theorem ok_bind {ε α β : Type} (a : α) (f : α → Except ε β) : (Except.ok a >>= f) = f a := rfl

section Lookup

variable {α β : Type} [BEq α] [LawfulBEq α]

theorem lookup_alter [DecidableEq α] (entries : List (α × β)) (key : α) (f : β → β) (k : α) :
    (entries.map fun (name, value) => (name, if name = key then f value else value)).lookup k =
      (entries.lookup k).map fun value => if k = key then f value else value := by
  induction entries with
  | nil => rfl
  | cons entry entries ih =>
    obtain ⟨name, value⟩ := entry
    rw [List.map_cons, List.lookup_cons, List.lookup_cons]
    by_cases h : k = name
    · subst h
      simp
    · rw [beq_false_of_ne h]
      simpa using ih

theorem mem_of_lookup {entries : List (α × β)} {k : α} {value : β} (h : entries.lookup k = some value) :
    (k, value) ∈ entries := by
  induction entries with
  | nil => cases h
  | cons entry entries ih =>
    obtain ⟨name, value'⟩ := entry
    rw [List.lookup_cons] at h
    by_cases hk : k = name
    · subst hk
      simp only [BEq.rfl, Option.some.injEq] at h
      rw [h]
      exact List.mem_cons_self
    · rw [beq_false_of_ne hk] at h
      exact List.mem_cons_of_mem _ (ih h)

theorem lookup_eq_none {entries : List (α × β)} {k : α} : entries.lookup k = none ↔ k ∉ entries.map Prod.fst := by
  induction entries with
  | nil => simp
  | cons entry entries ih =>
    obtain ⟨name, value⟩ := entry
    rw [List.lookup_cons]
    by_cases hk : k = name
    · subst hk
      simp
    · rw [beq_false_of_ne hk]
      simp [ih, hk]

theorem lookup_of_mem {entries : List (α × β)} (hnodup : (entries.map Prod.fst).Nodup) {k : α} {value : β}
    (h : (k, value) ∈ entries) : entries.lookup k = some value := by
  induction entries with
  | nil => cases h
  | cons entry entries ih =>
    obtain ⟨name, value'⟩ := entry
    obtain ⟨hnew, hrest⟩ := List.nodup_cons.mp hnodup
    rw [List.lookup_cons]
    rcases List.mem_cons.mp h with heq | hm
    · cases heq
      simp
    · have hk : k ≠ name := by
        rintro rfl
        exact hnew (List.mem_map.mpr ⟨_, hm, rfl⟩)
      rw [beq_false_of_ne hk]
      exact ih hrest hm

end Lookup

structure CollapseDetails where
  collapsedSessionNames : List String
  collapsedSessionSizes : List Nat
deriving DecidableEq

/-- The demultiplexer levels a session is below, outermost first, with its id and the size at each of them. -/
structure NodeSessionMetadata where
  details : List (String × Nat × Nat) := []
  sessionsLevels : List String := []
deriving DecidableEq

namespace NodeSessionMetadata

/-- `session_id_t` has 32 bits. -/
def sessionIdWord : Nat := 2 ^ 32

def generateSubsessions (metadata : NodeSessionMetadata) (nodeName : String) (subsessionSize : Nat) :
    Except String (List NodeSessionMetadata) :=
  if nodeName.isEmpty then .error "Cannot generate subsession with empty parent name"
  else if (metadata.details.lookup nodeName).isSome then
    .error "Cannot generate subsession with already used name"
  else .ok ((List.range subsessionSize).map fun counter =>
    { details := metadata.details ++ [(nodeName, counter, subsessionSize)]
      sessionsLevels := metadata.sessionsLevels ++ [nodeName] })

/-- The innermost levels are among the names. With as many names as levels the bound of the source's loop wraps
around and nothing is checked. -/
def inLifoOrder (metadata : NodeSessionMetadata) (names : Finset String) : Bool :=
  metadata.sessionsLevels.length ≤ names.card ||
    (metadata.sessionsLevels.reverse.take names.card).all (decide <| · ∈ names)

def getSubsessionSize (metadata : NodeSessionMetadata) (subsessionName : String) : Except String Nat :=
  match metadata.details.lookup subsessionName with
  | none => .error "Tried to take non existing subsession size"
  | some (_, size) => .ok size

def getCollapsedSessionMetadata (metadata : NodeSessionMetadata) (ignoredNodeNames : Finset String) :
    Except String (NodeSessionMetadata × CollapseDetails) :=
  if ignoredNodeNames.card = 0 then .error "Tried to collapse sessions with empty set"
  else if ∃ name ∈ ignoredNodeNames, metadata.details.lookup name = none then
    .error "Tried to collapse nonexisting subsession"
  else if !metadata.inLifoOrder ignoredNodeNames then .error "Cannot collapse sessions not in LIFO order"
  else do
    let collapsedSessionNames := metadata.sessionsLevels.filter (decide <| · ∈ ignoredNodeNames)
    let collapsedSessionSizes ← collapsedSessionNames.mapM metadata.getSubsessionSize
    return ({ details := metadata.details.filter fun pair => decide (pair.1 ∉ ignoredNodeNames)
              sessionsLevels := metadata.sessionsLevels.filter (decide <| · ∉ ignoredNodeNames) },
      ⟨collapsedSessionNames, collapsedSessionSizes⟩)

/-- `details.at`, which throws. -/
def detailsAt (metadata : NodeSessionMetadata) (level : String) : Except String (Nat × Nat) :=
  match metadata.details.lookup level with
  | none => .error "std::out_of_range"
  | some subsession => .ok subsession

def getShardId (metadata : NodeSessionMetadata) (collapsedNames : Finset String) : Except String Nat :=
  if collapsedNames.card = 0 then .ok 0
  else if metadata.sessionsLevels.length < collapsedNames.card then
    .error "Tried to collapse more subsession levels than exists"
  else if !metadata.inLifoOrder collapsedNames then .error "Cannot collapse sessions not in LIFO order"
  else do
    let subsessionDetails ← (metadata.sessionsLevels.reverse.take collapsedNames.card).mapM metadata.detailsAt
    return (subsessionDetails.foldl (RowMajor.accumulate sessionIdWord) (0, 1)).1

end NodeSessionMetadata

end ModelServer
