import Mathlib.Data.List.Nodup
import Mathlib.Logic.Function.Basic

/-!
Subjects that keep a list of the observers to notify, and observers that remember which subjects they subscribed to.
-/

namespace Subscriptions

variable {σ ο : Type*} [DecidableEq σ] [DecidableEq ο]

/-- The subject has one more subscriber; `none` if the observer is one already. -/
def subscribe (subscribers : σ → List ο) (subject : σ) (observer : ο) : Option (σ → List ο) :=
  if observer ∈ subscribers subject then none
  else some (Function.update subscribers subject (observer :: subscribers subject))

/-- The subject has one subscriber less; `none` if the observer was none. -/
def unsubscribe (subscribers : σ → List ο) (subject : σ) (observer : ο) : Option (σ → List ο) :=
  if observer ∈ subscribers subject then
    some (Function.update subscribers subject ((subscribers subject).erase observer))
  else none

/-- The subjects notify just the observers that remember them, and each of them once. -/
structure Agree (subscribers : σ → List ο) (subscriptions : ο → List σ) : Prop where
  mem_iff : ∀ subject observer, observer ∈ subscribers subject ↔ subject ∈ subscriptions observer
  once : ∀ subject, (subscribers subject).Nodup
  distinct : ∀ observer, (subscriptions observer).Nodup

variable {subscribers : σ → List ο} {subscriptions : ο → List σ} {subject : σ} {observer : ο}

omit [DecidableEq σ] [DecidableEq ο] in
theorem agree_empty : Agree (fun _ : σ => ([] : List ο)) fun _ => [] where
  mem_iff _ _ := iff_of_false List.not_mem_nil List.not_mem_nil
  once _ := .nil
  distinct _ := .nil

theorem Agree.subscribe (h : Agree subscribers subscriptions) (hnew : subject ∉ subscriptions observer) :
    ∃ next, Subscriptions.subscribe subscribers subject observer = some next ∧
      Agree next (Function.update subscriptions observer (subject :: subscriptions observer)) := by
  have hout : observer ∉ subscribers subject := fun hmem => hnew ((h.mem_iff subject observer).mp hmem)
  refine ⟨_, if_neg hout, ?_, ?_, ?_⟩
  · intro other who
    simp only [Function.update_apply]
    have hmem := h.mem_iff other who
    split
    next heq =>
      subst heq
      split
      next heq => subst heq; simp
      next hne => simp [hne, hmem]
    next hne =>
      split
      next heq => subst heq; simp [hne, hmem]
      next => exact hmem
  · intro other
    simp only [Function.update_apply]
    split
    next => exact List.nodup_cons.mpr ⟨hout, h.once subject⟩
    next => exact h.once other
  · intro who
    simp only [Function.update_apply]
    split
    next => exact List.nodup_cons.mpr ⟨hnew, h.distinct observer⟩
    next => exact h.distinct who

theorem Agree.unsubscribe {rest : List σ} (h : Agree subscribers subscriptions)
    (hfirst : subscriptions observer = subject :: rest) :
    ∃ next, Subscriptions.unsubscribe subscribers subject observer = some next ∧
      Agree next (Function.update subscriptions observer rest) := by
  have hin : observer ∈ subscribers subject := (h.mem_iff subject observer).mpr (hfirst ▸ List.mem_cons_self)
  have hdistinct := h.distinct observer
  rw [hfirst] at hdistinct
  obtain ⟨hnot, hrest⟩ := List.nodup_cons.mp hdistinct
  refine ⟨_, if_pos hin, ?_, ?_, ?_⟩
  · intro other who
    simp only [Function.update_apply]
    have hmem := h.mem_iff other who
    split
    next heq =>
      subst heq
      rw [(h.once other).mem_erase_iff]
      split
      next heq => subst heq; exact iff_of_false (fun h => h.1 rfl) hnot
      next hne => rw [and_iff_right hne, hmem]
    next hne =>
      split
      next heq =>
        subst heq
        rw [hmem, hfirst, List.mem_cons, or_iff_right hne]
      next => exact hmem
  · intro other
    simp only [Function.update_apply]
    split
    next => exact (h.once subject).erase observer
    next => exact h.once other
  · intro who
    simp only [Function.update_apply]
    split
    next => exact hrest
    next => exact h.distinct who

variable (observer) in
/-- An observer that unsubscribes from all that it remembers is notified by none any more. -/
theorem Agree.unsubscribeAll (h : Agree subscribers subscriptions) :
    ∃ next, (subscriptions observer).foldlM (Subscriptions.unsubscribe · · observer) subscribers = some next ∧
      Agree next (Function.update subscriptions observer []) := by
  generalize hall : subscriptions observer = all
  induction all generalizing subscribers subscriptions with
  | nil =>
    refine ⟨subscribers, rfl, ?_⟩
    rwa [← hall, Function.update_eq_self]
  | cons subject rest ih =>
    obtain ⟨between, hfirst, hagree⟩ := h.unsubscribe hall
    obtain ⟨next, hrest, hagree⟩ := ih hagree (Function.update_self ..)
    rw [Function.update_idem] at hagree
    refine ⟨next, ?_, hagree⟩
    rw [List.foldlM_cons, hfirst]
    exact hrest

end Subscriptions
