import Mathlib.Tactic.Common

namespace Runs

variable {σ α : Type*}

/-- The state after these actions in turn; `none` where one of them is not possible. -/
def run (step : σ → α → Option σ) (s : σ) : List α → Option σ
  | [] => some s
  | action :: actions => (step s action).bind fun next => run step next actions

/-- A run leads from `start` to the state, and all its steps are allowed in the state before them. -/
inductive Reaches (step : σ → α → Option σ) (allowed : σ → α → Prop) (start : σ) : σ → Prop
  | refl : Reaches step allowed start start
  | tail {s t action} : Reaches step allowed start s → allowed s action → step s action = some t →
      Reaches step allowed start t

/-- Every step is allowed. -/
def anyStep (_ : σ) (_ : α) : Prop := True

variable {step : σ → α → Option σ} {allowed : σ → α → Prop} {start s t : σ}

theorem Reaches.keeps {invariant : σ → Prop} (h : Reaches step allowed start s) (hstart : invariant start)
    (hstep : ∀ {s t action}, invariant s → allowed s action → step s action = some t → invariant t) :
    invariant s := by
  induction h with
  | refl => exact hstart
  | tail _ hallowed htaken ih => exact hstep ih hallowed htaken

theorem Reaches.mono {more : σ → α → Prop} (h : Reaches step allowed start s)
    (hmore : ∀ s action, allowed s action → more s action) : Reaches step more start s := by
  induction h with
  | refl => exact .refl
  | tail _ hallowed htaken ih => exact .tail ih (hmore _ _ hallowed) htaken

theorem Reaches.trans (h : Reaches step allowed start s) (hmore : Reaches step allowed s t) :
    Reaches step allowed start t := by
  induction hmore with
  | refl => exact h
  | tail _ hallowed htaken ih => exact .tail ih hallowed htaken

/-- A system simulates another one if it can follow each of its steps by a run of its own. -/
theorem Reaches.simulated {τ β : Type*} {abstractStep : τ → β → Option τ} {abstractStart : τ}
    (h : Reaches step allowed start s) (related : σ → τ → Prop) (hstart : related start abstractStart)
    (hstep : ∀ {s t action} {a : τ}, related s a → allowed s action → step s action = some t →
      ∃ b, Reaches abstractStep anyStep a b ∧ related t b) :
    ∃ a, Reaches abstractStep anyStep abstractStart a ∧ related s a := by
  induction h with
  | refl => exact ⟨abstractStart, .refl, hstart⟩
  | tail _ hallowed htaken ih =>
    obtain ⟨a, ha, hrelated⟩ := ih
    obtain ⟨b, hb, hrelated⟩ := hstep hrelated hallowed htaken
    exact ⟨b, ha.trans hb, hrelated⟩

/-- Every one of these actions in turn is allowed in the state before it. -/
def Allows (step : σ → α → Option σ) (allowed : σ → α → Prop) : σ → List α → Prop
  | _, [] => True
  | s, action :: actions => allowed s action ∧ (step s action).elim True fun next => Allows step allowed next actions

instance Allows.decidable [∀ s action, Decidable (allowed s action)] :
    ∀ s actions, Decidable (Allows step allowed s actions)
  | _, [] => inferInstanceAs (Decidable True)
  | s, action :: actions =>
    @instDecidableAnd _ _ inferInstance <|
      match step s action with
      | some next => Allows.decidable next actions
      | none => inferInstanceAs (Decidable True)

theorem Reaches.run {actions : List α} (hreach : Reaches step allowed start s) (hallows : Allows step allowed s actions)
    (h : run step s actions = some t) : Reaches step allowed start t := by
  induction actions generalizing s with
  | nil =>
    cases Option.some.inj h
    exact hreach
  | cons action actions ih =>
    obtain ⟨next, hnext, h⟩ := Option.bind_eq_some_iff.mp h
    obtain ⟨hallowed, hallows⟩ := hallows
    rw [hnext] at hallows
    exact ih (.tail hreach hallowed hnext) hallows h

theorem allows_anyStep (s : σ) (actions : List α) : Allows step anyStep s actions := by
  induction actions generalizing s with
  | nil => trivial
  | cons action actions ih =>
    refine ⟨trivial, ?_⟩
    cases step s action with
    | none => trivial
    | some next => exact ih next

theorem reaches_of_run {actions : List α} (h : run step s actions = some t) : Reaches step anyStep s t :=
  Reaches.run .refl (allows_anyStep s actions) h

/-- Where every action is possible and keeps the invariant, every run is. -/
theorem run_keeps {invariant : σ → Prop} (hstep : ∀ s action, invariant s → ∃ t, step s action = some t ∧ invariant t)
    (hs : invariant s) (actions : List α) : ∃ t, run step s actions = some t ∧ invariant t := by
  induction actions generalizing s with
  | nil => exact ⟨s, rfl, hs⟩
  | cons action actions ih =>
    obtain ⟨next, hnext, hinvariant⟩ := hstep s action hs
    obtain ⟨t, ht, hinvariant⟩ := ih hinvariant
    refine ⟨t, ?_, hinvariant⟩
    unfold run
    rw [hnext]
    exact ht

/-- A loop over a list, as a run that takes one turn for each element. -/
def turns (turn : σ → α → σ) (s : σ) (a : α) : Option σ := some (turn s a)

theorem run_turns (turn : σ → α → σ) (s : σ) (actions : List α) :
    run (turns turn) s actions = some (actions.foldl turn s) := by
  induction actions generalizing s with
  | nil => rfl
  | cons action actions ih => exact ih (turn s action)

theorem foldl_keeps {turn : σ → α → σ} (invariant : σ → Prop) {actions : List α}
    (hallows : Allows (turns turn) allowed s actions) (hs : invariant s)
    (hturn : ∀ {s action}, invariant s → allowed s action → invariant (turn s action)) :
    invariant (actions.foldl turn s) := by
  have hreaches := Reaches.run .refl hallows (run_turns turn s actions)
  apply hreaches.keeps hs
  intro s t action hs hallowed ht
  cases Option.some.inj ht
  exact hturn hs hallowed

end Runs
