import Mathlib.Data.List.Basic
import Mathlib.Tactic.Common

/-! A consumer that feeds a stateful parser and, after each call, drains it until
it has nothing more to give. -/

namespace Streaming

variable {σ ι δ : Type*}

/-- `drain` is called until it returns nothing; the outputs in order and the state left. -/
inductive Drains (drain : σ → Option δ × σ) : σ → List δ → σ → Prop
  | done {s t} : drain s = (none, t) → Drains drain s [] t
  | more {s t u d ds} : drain s = (some d, t) → Drains drain t ds u → Drains drain s (d :: ds) u

/-- A list of inputs is fed one by one, each followed by a full drain. -/
inductive Feeds (parse : σ → ι → Option δ × σ) (drain : σ → Option δ × σ) :
    σ → List ι → List δ → σ → Prop
  | nil {s} : Feeds parse drain s [] [] s
  | cons {s t u v i is d ds es} : parse s i = (d, t) → Drains drain t ds u →
      Feeds parse drain u is es v → Feeds parse drain s (i :: is) (d.toList ++ ds ++ es) v

def drainAll (drain : σ → Option δ × σ) : Nat → σ → Option (List δ × σ)
  | 0, _ => none
  | budget + 1, s =>
    match drain s with
    | (none, t) => some ([], t)
    | (some d, t) => (drainAll drain budget t).map fun (ds, u) => (d :: ds, u)

def feedAll (parse : σ → ι → Option δ × σ) (drain : σ → Option δ × σ) (budget : Nat) :
    σ → List ι → Option (List δ × σ)
  | s, [] => some ([], s)
  | s, i :: is =>
    (drainAll drain budget (parse s i).2).bind fun (ds, u) =>
      (feedAll parse drain budget u is).map fun (es, v) =>
        ((parse s i).1.toList ++ ds ++ es, v)

variable {parse : σ → ι → Option δ × σ} {drain : σ → Option δ × σ}

theorem drains_of_drainAll {budget : Nat} {s t : σ} {ds : List δ}
    (h : drainAll drain budget s = some (ds, t)) : Drains drain s ds t := by
  induction budget generalizing s ds with
  | zero => simp [drainAll] at h
  | succ budget ih =>
    simp only [drainAll] at h
    split at h
    next u hu =>
      cases Option.some.inj h
      exact .done hu
    next d u hu =>
      obtain ⟨⟨es, v⟩, he, heq⟩ := Option.map_eq_some_iff.mp h
      cases heq
      exact .more hu (ih he)

theorem feeds_of_feedAll {budget : Nat} {s t : σ} {is : List ι} {ds : List δ}
    (h : feedAll parse drain budget s is = some (ds, t)) : Feeds parse drain s is ds t := by
  induction is generalizing s ds with
  | nil =>
    cases Option.some.inj h
    exact .nil
  | cons i is ih =>
    simp only [feedAll] at h
    obtain ⟨⟨es, u⟩, hd, h⟩ := Option.bind_eq_some_iff.mp h
    obtain ⟨⟨fs, v⟩, hf, heq⟩ := Option.map_eq_some_iff.mp h
    cases heq
    exact .cons rfl (drains_of_drainAll hd) (ih hf)

theorem Drains.unique {s t u : σ} {ds es : List δ} (h : Drains drain s ds t)
    (h' : Drains drain s es u) : ds = es ∧ t = u := by
  induction h generalizing es with
  | done hs =>
    cases h' with
    | done hs' => exact ⟨rfl, (Prod.mk.inj (hs.symm.trans hs')).2⟩
    | more hs' _ => rw [hs] at hs'; cases hs'
  | more hs _ ih =>
    cases h' with
    | done hs' => rw [hs] at hs'; cases hs'
    | more hs' hrest =>
      cases hs.symm.trans hs'
      obtain ⟨rfl, rfl⟩ := ih hrest
      exact ⟨rfl, rfl⟩

theorem Feeds.unique {s t u : σ} {is : List ι} {ds es : List δ} (h : Feeds parse drain s is ds t)
    (h' : Feeds parse drain s is es u) : ds = es ∧ t = u := by
  induction h generalizing es with
  | nil => cases h'; exact ⟨rfl, rfl⟩
  | cons hp hd _ ih =>
    cases h' with
    | cons hp' hd' hrest =>
      cases hp.symm.trans hp'
      obtain ⟨rfl, rfl⟩ := hd.unique hd'
      obtain ⟨rfl, rfl⟩ := ih hrest
      exact ⟨rfl, rfl⟩

theorem Feeds.append {s t u : σ} {is js : List ι} {ds es : List δ}
    (h : Feeds parse drain s is ds t) (h' : Feeds parse drain t js es u) :
    Feeds parse drain s (is ++ js) (ds ++ es) u := by
  induction h with
  | nil => exact h'
  | cons hp hd _ ih =>
    simp only [List.cons_append, List.append_assoc]
    have := Feeds.cons hp hd (ih h')
    simpa only [List.append_assoc] using this

theorem Feeds.single {s t u : σ} {i : ι} {d : Option δ} {ds : List δ} (hp : parse s i = (d, t))
    (hd : Drains drain t ds u) : Feeds parse drain s [i] (d.toList ++ ds) u := by
  simpa using Feeds.cons hp hd .nil

/-- Draining ends where every output lowers a measure. -/
theorem drains_of_measure {α : Type*} {r : α → α → Prop} (wf : WellFounded r) (μ : σ → α)
    (inv : σ → Prop) (dec : ∀ s d t, inv s → drain s = (some d, t) → inv t ∧ r (μ t) (μ s))
    (s : σ) (hs : inv s) : ∃ ds t, Drains drain s ds t := by
  induction hn : μ s using wf.induction generalizing s with
  | _ n ih =>
    match he : drain s with
    | (none, t) => exact ⟨[], t, .done he⟩
    | (some d, t) =>
      obtain ⟨hi, hlt⟩ := dec s d t hs he
      obtain ⟨ds, u, hd⟩ := ih (μ t) (hn ▸ hlt) t hi rfl
      exact ⟨d :: ds, u, .more he hd⟩

/-- Draining that gives an output each time. -/
def Endless (drain : σ → Option δ × σ) (s : σ) : Prop :=
  ∃ run : Nat → σ, run 0 = s ∧ ∀ n, ∃ d, drain (run n) = (some d, run (n + 1))

theorem Drains.not_endless {s t : σ} {ds : List δ} (h : Drains drain s ds t) : ¬Endless drain s := by
  induction h with
  | done hs =>
    rintro ⟨run, rfl, hrun⟩
    obtain ⟨d, hd⟩ := hrun 0
    rw [hs] at hd
    cases hd
  | more hs _ ih =>
    rintro ⟨run, rfl, hrun⟩
    obtain ⟨d, hd⟩ := hrun 0
    cases hs.symm.trans hd
    exact ih ⟨fun n => run (n + 1), rfl, fun n => hrun (n + 1)⟩

/-- Every run exists where draining always ends after a call. -/
theorem feeds_total (total : ∀ s i, ∃ ds t, Drains drain (parse s i).2 ds t) (s : σ) (is : List ι) :
    ∃ ds t, Feeds parse drain s is ds t := by
  induction is generalizing s with
  | nil => exact ⟨[], s, .nil⟩
  | cons i is ih =>
    obtain ⟨ds, u, hd⟩ := total s i
    obtain ⟨es, v, hf⟩ := ih u
    exact ⟨_, v, .cons rfl hd hf⟩

end Streaming
