import Mathlib.Logic.Function.Basic
import Mathlib.Tactic.Common

namespace KeyedFold

variable {κ σ ε : Type*} [DecidableEq κ] {f : κ → σ → ε → Option σ} {kept kept' : κ → σ} {events : List (κ × ε)}

/-- An event changes what is kept under its key. -/
def updateAt (f : κ → σ → ε → Option σ) (kept : κ → σ) (event : κ × ε) : Option (κ → σ) :=
  (f event.1 (kept event.1) event.2).map (Function.update kept event.1)

/-- The events of a key. -/
def eventsOf (events : List (κ × ε)) (key : κ) : List ε := (events.filter (·.1 = key)).map Prod.snd

theorem mem_eventsOf {key : κ} {event : ε} : event ∈ eventsOf events key ↔ (key, event) ∈ events := by
  unfold eventsOf
  rw [List.mem_map]
  constructor
  · intro h
    obtain ⟨⟨key', event'⟩, hm, rfl⟩ := h
    obtain ⟨hm, hkey⟩ := List.mem_filter.mp hm
    rw [← of_decide_eq_true hkey]
    exact hm
  · exact fun hm => ⟨(key, event), List.mem_filter.mpr ⟨hm, by simp⟩, rfl⟩

theorem eventsOf_cons {key key' : κ} {event : ε} : eventsOf ((key', event) :: events) key =
    if key' = key then event :: eventsOf events key else eventsOf events key := by
  unfold eventsOf
  by_cases h : key' = key <;> simp [h]

/-- Each key is changed by its own events, in their order. -/
theorem foldlM_updateAt : events.foldlM (updateAt f) kept = some kept' ↔
    ∀ key, (eventsOf events key).foldlM (f key) (kept key) = some (kept' key) := by
  induction events generalizing kept with
  | nil =>
    simp only [List.foldlM_nil, eventsOf, List.filter_nil, List.map_nil]
    exact ⟨fun h key => by rw [Option.some.inj h]; rfl, fun h => congrArg some (funext fun key => Option.some.inj (h key))⟩
  | cons event events ih =>
    obtain ⟨key', event⟩ := event
    rw [List.foldlM_cons]
    cases hnext : f key' (kept key') event with
    | none =>
      simp only [updateAt, hnext, Option.map_none, Option.bind_eq_bind, Option.bind_none, reduceCtorEq, false_iff]
      intro h
      have hfirst := h key'
      rw [eventsOf_cons, if_pos rfl, List.foldlM_cons, hnext] at hfirst
      cases hfirst
    | some next =>
      simp only [updateAt, hnext, Option.map_some, Option.bind_eq_bind, Option.bind_some]
      rw [ih]
      apply forall_congr'
      intro key
      rw [eventsOf_cons]
      by_cases hkey : key' = key
      · subst hkey
        rw [Function.update_self, if_pos rfl, List.foldlM_cons, hnext]
        rfl
      · rw [Function.update_of_ne (Ne.symm hkey), if_neg hkey]

theorem foldlM_updateAt_none (h : events.foldlM (updateAt f) kept = none) :
    ∃ key, (eventsOf events key).foldlM (f key) (kept key) = none := by
  by_contra hall
  have heach : ∀ key, ∃ next, (eventsOf events key).foldlM (f key) (kept key) = some next :=
    fun key => Option.ne_none_iff_exists'.mp fun hnone => hall ⟨key, hnone⟩
  choose next hnext using heach
  rw [foldlM_updateAt.mpr hnext] at h
  cases h

end KeyedFold
