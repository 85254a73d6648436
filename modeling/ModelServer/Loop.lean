import Mathlib.Tactic.Common

namespace Loop

variable {σ ρ : Type*}

/-- Runs a loop body at most `budget` times. The body either continues with a
next state (`inl`) or leaves the loop with a result (`inr`). -/
def iterate (body : σ → σ ⊕ ρ) : Nat → σ → Option ρ
  | 0, _ => none
  | budget + 1, s =>
    match body s with
    | .inl next => iterate body budget next
    | .inr result => some result

/-- The loop leaves with a result, without a budget. -/
inductive Exits (body : σ → σ ⊕ ρ) : σ → ρ → Prop
  | leave {s r} : body s = .inr r → Exits body s r
  | again {s t r} : body s = .inl t → Exits body t r → Exits body s r

/-- A loop run with a budget; `stuck` is returned only where the budget is too small. -/
def run (body : σ → σ ⊕ ρ) (budget : Nat) (stuck : ρ) (s : σ) : ρ :=
  (iterate body budget s).getD stuck

theorem iterate_mono {body : σ → σ ⊕ ρ} {budget more : Nat} {s : σ} {r : ρ} (h : iterate body budget s = some r)
    (hle : budget ≤ more) : iterate body more s = some r := by
  induction budget generalizing more s with
  | zero => cases h
  | succ budget ih =>
    obtain ⟨more, rfl⟩ : ∃ n, more = n + 1 := Nat.exists_eq_succ_of_ne_zero (by omega)
    rw [iterate] at h ⊢
    split
    next t ht =>
      rw [ht] at h
      exact ih h (by omega)
    next q hq =>
      rw [hq] at h
      exact h

theorem exits_of_iterate {body : σ → σ ⊕ ρ} {budget : Nat} {s : σ} {r : ρ}
    (h : iterate body budget s = some r) : Exits body s r := by
  induction budget generalizing s with
  | zero => simp [iterate] at h
  | succ budget ih =>
    simp only [iterate] at h
    split at h
    next t ht => exact .again ht (ih h)
    next q hq =>
      cases Option.some.inj h
      exact .leave hq

theorem Exits.unique {body : σ → σ ⊕ ρ} {s : σ} {r q : ρ} (h : Exits body s r)
    (h' : Exits body s q) : r = q := by
  induction h with
  | leave hr =>
    cases h' with
    | leave hq => exact Sum.inr.inj (hr.symm.trans hq)
    | again ht _ => rw [hr] at ht; cases ht
  | again ht _ ih =>
    cases h' with
    | leave hq => rw [ht] at hq; cases hq
    | again ht' hrest =>
      cases Sum.inl.inj (ht.symm.trans ht')
      exact ih hrest

theorem iterate_isSome_of_measure {body : σ → σ ⊕ ρ} (μ : σ → Nat)
    (dec : ∀ s t, body s = .inl t → μ t < μ s) {budget : Nat} {s : σ} (hb : μ s < budget) :
    ∃ r, iterate body budget s = some r := by
  induction budget generalizing s with
  | zero => omega
  | succ budget ih =>
    simp only [iterate]
    split
    next t ht =>
      have := dec s t ht
      exact ih (by omega)
    next r _ => exact ⟨r, rfl⟩

/-- A measure that every pass lowers makes the budget a proved bound, not a cap. -/
theorem run_exits {body : σ → σ ⊕ ρ} (μ : σ → Nat)
    (dec : ∀ s t, body s = .inl t → μ t < μ s) {budget : Nat} (stuck : ρ) {s : σ}
    (hb : μ s < budget) : Exits body s (run body budget stuck s) := by
  obtain ⟨r, hr⟩ := iterate_isSome_of_measure μ dec hb
  rw [run, hr]
  exact exits_of_iterate hr

/-- The same where the measure is lowered as long as an invariant holds. -/
theorem run_exits_keeping {body : σ → σ ⊕ ρ} {I : σ → Prop} (μ : σ → Nat)
    (dec : ∀ s t, I s → body s = .inl t → I t ∧ μ t < μ s) {budget : Nat} (stuck : ρ) {s : σ} (hi : I s)
    (hb : μ s < budget) : Exits body s (run body budget stuck s) := by
  have hsome : ∃ r, iterate body budget s = some r := by
    induction budget generalizing s with
    | zero => omega
    | succ budget ih =>
      simp only [iterate]
      split
      next t ht =>
        obtain ⟨hi', hlt⟩ := dec s t hi ht
        exact ih hi' (by omega)
      next r _ => exact ⟨r, rfl⟩
  obtain ⟨r, hr⟩ := hsome
  rw [run, hr]
  exact exits_of_iterate hr

/-- What every pass keeps holds of the result, if the last pass turns it into the result's property. -/
theorem Exits.invariant {body : σ → σ ⊕ ρ} {I : σ → Prop} {Q : ρ → Prop}
    (keep : ∀ s t, I s → body s = .inl t → I t)
    (last : ∀ s r, I s → body s = .inr r → Q r)
    {s : σ} {r : ρ} (h : Exits body s r) (hi : I s) : Q r := by
  induction h with
  | leave hr => exact last _ _ hi hr
  | again ht _ ih => exact ih (keep _ _ hi ht)

/-- A loop that leaves where its input ends takes up there once more input arrives. -/
theorem Exits.extend {ι : Type*} {body : σ → σ ⊕ σ} {I : σ → Prop} (extend : σ → ι → σ) {x : ι}
    (rest : ∀ s r, body s = .inr r → r = s)
    (keep : ∀ s t, I s → body s = .inl t → I t ∧ body (extend s x) = .inl (extend t x))
    {s r q : σ} (h : Exits body s r) (hi : I s) (h' : Exits body (extend r x) q) :
    Exits body (extend s x) q := by
  induction h with
  | leave hr =>
    cases rest _ _ hr
    exact h'
  | again ht _ ih =>
    obtain ⟨hi', ht'⟩ := keep _ _ hi ht
    exact .again ht' (ih hi' h')

/-- Two loops that pass related states to related states leave with related results. -/
theorem Exits.simulate {σ' ρ' : Type*} {body : σ → σ ⊕ ρ} {body' : σ' → σ' ⊕ ρ'}
    {R : σ → σ' → Prop} {Q : ρ → ρ' → Prop}
    (keep : ∀ s s' t, R s s' → body s = .inl t → ∃ t', body' s' = .inl t' ∧ R t t')
    (last : ∀ s s' r, R s s' → body s = .inr r → ∃ r', body' s' = .inr r' ∧ Q r r')
    {s : σ} {s' : σ'} {r : ρ} (h : Exits body s r) (hr : R s s') :
    ∃ r', Exits body' s' r' ∧ Q r r' := by
  induction h generalizing s' with
  | leave hb =>
    obtain ⟨r', hr', hq⟩ := last _ _ _ hr hb
    exact ⟨r', .leave hr', hq⟩
  | again ht _ ih =>
    obtain ⟨t', ht', hr'⟩ := keep _ _ _ hr ht
    obtain ⟨r', he, hq⟩ := ih hr'
    exact ⟨r', .again ht' he, hq⟩

end Loop
