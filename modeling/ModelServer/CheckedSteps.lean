import Mathlib.Data.List.Forall2

/-! Steps of which any may fail, one after the other. -/

namespace CheckedSteps

variable {α β γ ε : Type}

theorem bind_eq_ok {x : Except ε α} {f : α → Except ε β} {b : β} : x >>= f = .ok b ↔ ∃ a, x = .ok a ∧ f a = .ok b := by
  cases x with
  | error e => exact iff_of_false nofun fun ⟨_, h, _⟩ => by cases h
  | ok a => exact ⟨fun h => ⟨a, rfl, h⟩, fun ⟨_, h, hb⟩ => by cases h; exact hb⟩

/-- A check that lets through. -/
theorem not_of_ite_error {p : Prop} [Decidable p] {e : ε} {x : Except ε α} {a : α} (h : (if p then .error e else x) = .ok a) :
    ¬p ∧ x = .ok a := by
  by_cases hp : p
  · rw [if_pos hp] at h
    cases h
  · rw [if_neg hp] at h
    exact ⟨hp, h⟩

/-- A check with nothing to say. -/
theorem none_of_ite_some {p : Prop} [Decidable p] {a : α} {x : Option α} (h : (if p then some a else x) = none) :
    ¬p ∧ x = none := by
  by_cases hp : p
  · rw [if_pos hp] at h
    cases h
  · rw [if_neg hp] at h
    exact ⟨hp, h⟩

theorem forM_ok {f : α → Except ε Unit} {xs : List α} (h : xs.forM f = .ok ()) : ∀ x ∈ xs, f x = .ok () := by
  induction xs with
  | nil => exact nofun
  | cons x xs ih =>
    obtain ⟨_, hfirst, hrest⟩ := bind_eq_ok.mp h
    exact List.forall_mem_cons.mpr ⟨hfirst, ih hrest⟩

/-- Each turn of a loop that comes to its end has been taken. -/
theorem foldlM_turn {f : β → α → Except ε β} {xs : List α} {b b' : β} (h : xs.foldlM f b = .ok b') : ∀ x ∈ xs, ∃ c c', f c x = .ok c' := by
  induction xs generalizing b with
  | nil => exact nofun
  | cons x xs ih =>
    rw [List.foldlM_cons] at h
    obtain ⟨next, hnext, h⟩ := bind_eq_ok.mp h
    exact List.forall_mem_cons.mpr ⟨⟨b, next, hnext⟩, ih h⟩

/-- Turns that none of them fails. -/
theorem foldlM_ok {f : β → α → Except ε β} {g : β → α → β} {xs : List α} (h : ∀ x ∈ xs, ∀ b, f b x = .ok (g b x)) (b : β) :
    xs.foldlM f b = .ok (xs.foldl g b) := by
  induction xs generalizing b with
  | nil => rfl
  | cons x xs ih =>
    rw [List.foldlM_cons, h x List.mem_cons_self]
    exact ih (fun y hy => h y (List.mem_cons_of_mem _ hy)) (g b x)

/-- A loop over an option whose turns all succeed, and what each of them has done in the end. -/
theorem foldlM_done {f : β → α → Option β} (Kept : β → Prop) (Done : α → β → Prop) (xs : List α) {b : β}
    (hb : Kept b)
    (hturn : ∀ x ∈ xs, ∀ b, Kept b →
      ∃ next, f b x = some next ∧ Kept next ∧ Done x next ∧ ∀ other, Done other b → Done other next) :
    ∃ last, xs.foldlM f b = some last ∧ Kept last ∧ (∀ x ∈ xs, Done x last) ∧ ∀ other, Done other b → Done other last := by
  induction xs generalizing b with
  | nil => exact ⟨b, rfl, hb, nofun, fun _ h => h⟩
  | cons x xs ih =>
    obtain ⟨next, hnext, hkept, hdone, hmore⟩ := hturn x List.mem_cons_self b hb
    obtain ⟨last, hlast, hkept, hall, hrest⟩ := ih hkept fun y hy => hturn y (List.mem_cons_of_mem _ hy)
    refine ⟨last, ?_, hkept, List.forall_mem_cons.mpr ⟨hrest x hdone, hall⟩, fun other h => hrest other (hmore other h)⟩
    rw [List.foldlM_cons, hnext]
    exact hlast

/-- Each result is mapped, if there are all of them. -/
theorem mapM_map_result (f : α → Except ε β) (g : β → γ) (xs : List α) :
    (xs.mapM fun x => (f x).map g) = (xs.mapM f).map (List.map g) := by
  induction xs with
  | nil => rfl
  | cons x xs ih =>
    rw [List.mapM_cons, List.mapM_cons, ih]
    cases f x with
    | error e => rfl
    | ok y =>
      cases xs.mapM f with
      | error e => rfl
      | ok ys => rfl

/-- What is read one by one is as it was said if and only if each is. -/
theorem mapM_iff {f : α → Except ε β} {Says : α → γ → Prop} {Same : γ → β → Prop} {Kept : γ → Prop} {xs : List α} {cs : List γ}
    (h : List.Forall₂ Says xs cs) (hone : ∀ x c, Says x c → ((∃ y, f x = .ok y ∧ Same c y) ↔ Kept c)) :
    (∃ ys, xs.mapM f = .ok ys ∧ List.Forall₂ Same cs ys) ↔ ∀ c ∈ cs, Kept c := by
  induction h with
  | nil => exact iff_of_true ⟨[], rfl, .nil⟩ nofun
  | @cons x c xs cs hfirst _ ih =>
    rw [List.forall_mem_cons, ← ih, ← hone x c hfirst, List.mapM_cons]
    constructor
    · intro ⟨ys, hys, hsame⟩
      obtain ⟨y, hy, hys⟩ := bind_eq_ok.mp hys
      obtain ⟨ys', hys', hys⟩ := bind_eq_ok.mp hys
      obtain rfl := Except.ok.inj hys
      obtain ⟨hfirst, hrest⟩ := List.forall₂_cons.mp hsame
      exact ⟨⟨y, hy, hfirst⟩, ys', hys', hrest⟩
    · intro ⟨⟨y, hy, hsame⟩, ys, hys, hrest⟩
      exact ⟨y :: ys, by rw [hy, hys]; rfl, .cons hsame hrest⟩

end CheckedSteps
