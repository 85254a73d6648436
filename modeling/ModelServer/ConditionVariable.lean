import ModelServer.Runs
import Mathlib.Data.Option.Basic
import Mathlib.Logic.Function.Basic

/-! A thread that waits on a condition variable, and threads that change what it waits for. -/

namespace ConditionVariable

/-- A thread with one mutex and one condition variable, over the shared state. -/
inductive Program (σ : Type*)
  | done
  | acquire (next : Program σ)
  | release (next : Program σ)
  | notify (next : Program σ)
  | update (f : σ → σ) (next : Program σ)
  | branch (condition : σ → Bool) (yes no : Program σ)

/-- The thread that waits, and whose other steps the shared state determines. -/
structure Waiting (σ : Type*) where
  ready : σ → Bool
  /-- Its next step is the call of `wait`. -/
  waits : σ → Bool
  /-- Its next step is one under the mutex. -/
  locks : σ → Bool
  work : σ → Option σ
  resume : σ → σ

/-- How far the thread has got in `wait`: it holds the mutex while it tests, and until it sleeps. -/
inductive Phase
  | running
  | testing
  | refused
  | asleep
  | woken
deriving DecidableEq

structure State (σ ι : Type*) where
  shared : σ
  /-- The thread that holds the mutex, if it is not the one that waits. -/
  owner : Option ι
  phase : Phase
  threads : ι → Program σ

inductive Action (ι : Type*)
  | work
  /-- The thread that sleeps wakes up without having been notified. -/
  | wake
  | thread (i : ι)

variable {σ ι : Type*}

def Phase.locked : Phase → Bool
  | .testing | .refused => true
  | .running | .asleep | .woken => false

def Phase.notified : Phase → Phase
  | .asleep => .woken
  | phase => phase

def State.free (s : State σ ι) : Bool := s.owner.isNone && !s.phase.locked

/-- A step of the thread that waits. -/
def Waiting.step (w : Waiting σ) (s : State σ ι) : Option (State σ ι) :=
  match s.phase with
  | .running =>
    if w.waits s.shared then if s.free then some { s with phase := .testing } else none
    else if w.locks s.shared && !s.free then none
    else (w.work s.shared).map fun shared => { s with shared := shared }
  | .testing => some (if w.ready s.shared then { s with shared := w.resume s.shared, phase := .running } else { s with phase := .refused })
  | .refused => some { s with phase := .asleep }
  | .asleep => none
  | .woken => if s.free then some { s with phase := .testing } else none

variable [DecidableEq ι]

/-- A step of one of the others. -/
def State.advance (s : State σ ι) (i : ι) : Option (State σ ι) :=
  match s.threads i with
  | .done => none
  | .acquire next => if s.free then some { s with owner := some i, threads := Function.update s.threads i next } else none
  | .release next => if s.owner = some i then some { s with owner := none, threads := Function.update s.threads i next } else none
  | .notify next => some { s with phase := s.phase.notified, threads := Function.update s.threads i next }
  | .update f next => some { s with shared := f s.shared, threads := Function.update s.threads i next }
  | .branch condition yes no =>
    some { s with threads := Function.update s.threads i (if condition s.shared then yes else no) }

def step (w : Waiting σ) (s : State σ ι) : Action ι → Option (State σ ι)
  | .work => w.step s
  | .wake => if s.phase = .asleep then some { s with phase := .woken } else none
  | .thread i => s.advance i

def start (shared : σ) (threads : ι → Program σ) : State σ ι := ⟨shared, none, .running, threads⟩

namespace Program

/-- The thread will notify, and under the mutex if that is asked for. -/
def Notifies (underMutex : Bool) : Bool → Program σ → Prop
  | _, .done => False
  | _, .acquire next => Notifies underMutex true next
  | _, .release next => Notifies underMutex false next
  | held, .notify next => underMutex = false ∨ held = true ∨ Notifies underMutex held next
  | held, .update _ next => Notifies underMutex held next
  | held, .branch _ yes no => Notifies underMutex held yes ∧ Notifies underMutex held no

/-- A change after which the thread that waits could go on is followed by a notification. Where the change is not made under the mutex,
the notification has to be. -/
def Disciplined (ready : σ → Bool) : Bool → Program σ → Prop
  | held, .done => held = false
  | held, .acquire next => held = false ∧ Disciplined ready true next
  | held, .release next => held = true ∧ Disciplined ready false next
  | held, .notify next => Disciplined ready held next
  | held, .update f next => ((∀ s, ready (f s) = true → ready s = true) ∨ Notifies (!held) held next) ∧ Disciplined ready held next
  | held, .branch _ yes no => Disciplined ready held yes ∧ Disciplined ready held no

theorem Notifies.anyhow {underMutex held : Bool} {p : Program σ} (h : Notifies underMutex held p) : Notifies false held p := by
  induction p generalizing held with
  | done => exact h
  | acquire next ih => exact ih h
  | release next ih => exact ih h
  | notify next ih => exact Or.inl rfl
  | update f next ih => exact ih h
  | branch condition yes no ihYes ihNo => exact ⟨ihYes h.1, ihNo h.2⟩

/-- The thread brings about what holds from then on. -/
def Brings (goal : σ → Prop) : Program σ → Prop
  | .done => False
  | .acquire next | .release next | .notify next => Brings goal next
  | .update f next => (∀ s, goal (f s)) ∨ Brings goal next
  | .branch condition yes no => ((∀ s, condition s = true → goal s) ∨ Brings goal yes) ∧ ((∀ s, condition s = false → goal s) ∨ Brings goal no)

/-- Every change the thread can make is one of these. -/
def Makes (allowed : (σ → σ) → Prop) : Program σ → Prop
  | .done => True
  | .acquire next | .release next | .notify next => Makes allowed next
  | .update f next => allowed f ∧ Makes allowed next
  | .branch _ yes no => Makes allowed yes ∧ Makes allowed no

/-- The thread counts at most once. -/
def CountsOnce (count : σ → Nat) : Program σ → Prop
  | .done => True
  | .acquire next | .release next | .notify next => CountsOnce count next
  | .update f next =>
    (∀ s, count (f s) = count s) ∧ CountsOnce count next ∨
      (∀ s, count (f s) ≤ count s + 1) ∧ Makes (fun f => ∀ s, count (f s) = count s) next
  | .branch _ yes no => CountsOnce count yes ∧ CountsOnce count no

end Program

def State.holds (s : State σ ι) (i : ι) : Bool := decide (s.owner = some i)

/-- What holds in every state: if the thread that waits has been refused, or sleeps, although it could go on, one of the others is about
to notify it. -/
structure Sound (w : Waiting σ) (s : State σ ι) : Prop where
  disciplined : ∀ i, (s.threads i).Disciplined w.ready (s.holds i)
  unowned : s.phase.locked = true → s.owner = none
  alerted : s.phase = .refused ∨ s.phase = .asleep → w.ready s.shared = true → ∃ i, (s.threads i).Notifies s.phase.locked (s.holds i)

section Steps

variable {w : Waiting σ} {s t : State σ ι} {i : ι} {next : Program σ}

theorem start_sound {shared : σ} {threads : ι → Program σ} (h : ∀ i, (threads i).Disciplined w.ready false) :
    Sound w (start shared threads) where
  disciplined := h
  unowned _ := rfl
  alerted hphase _ := by rcases hphase with hphase | hphase <;> cases hphase

omit [DecidableEq ι] in
theorem free_iff : s.free = true ↔ s.owner = none ∧ s.phase.locked = false := by
  rw [State.free, Bool.and_eq_true, Option.isNone_iff_eq_none, Bool.not_eq_true']

theorem holds_iff : s.holds i = true ↔ s.owner = some i := decide_eq_true_iff

theorem holds_of_none (hnone : s.owner = none) (j : ι) : s.holds j = false := by
  rw [State.holds, hnone]
  exact decide_eq_false (Option.some_ne_none j).symm

theorem holds_of_some (hsome : s.owner = some i) (j : ι) (hji : j ≠ i) : s.holds j = false := by
  rw [State.holds, hsome]
  exact decide_eq_false fun heq => hji (Option.some.inj heq).symm

namespace Sound

variable (h : Sound w s)
include h

theorem testing (hfree : s.free = true) : Sound w { s with phase := .testing } where
  disciplined := h.disciplined
  unowned _ := (free_iff.mp hfree).1
  alerted hphase _ := by rcases hphase with hphase | hphase <;> cases hphase

/-- The thread that runs need not be notified. -/
theorem running (shared : σ) : Sound w { s with shared := shared, phase := .running } where
  disciplined := h.disciplined
  unowned hlocked := absurd hlocked Bool.false_ne_true
  alerted hphase _ := by rcases hphase with hphase | hphase <;> cases hphase

theorem woken : Sound w { s with phase := .woken } where
  disciplined := h.disciplined
  unowned hlocked := absurd hlocked Bool.false_ne_true
  alerted hphase _ := by rcases hphase with hphase | hphase <;> cases hphase

theorem work (ht : w.step s = some t) : Sound w t := by
  obtain ⟨shared, owner, phase, threads⟩ := s
  unfold Waiting.step at ht
  cases phase with
  | running =>
    dsimp only at ht
    split at ht
    next =>
      split at ht
      next hfree =>
        cases ht
        exact h.testing hfree
      next => cases ht
    next =>
      split at ht
      next => cases ht
      next =>
        obtain ⟨shared', -, rfl⟩ := Option.map_eq_some_iff.mp ht
        exact h.running shared'
  | testing =>
    cases ht
    split
    next => exact h.running _
    next hready =>
      exact ⟨h.disciplined, fun _ => h.unowned rfl, fun _ hnow => absurd hnow hready⟩
  | refused =>
    cases ht
    refine ⟨h.disciplined, fun hlocked => absurd hlocked Bool.false_ne_true, fun _ hready => ?_⟩
    obtain ⟨i, hi⟩ := h.alerted (Or.inl rfl) hready
    exact ⟨i, hi.anyhow⟩
  | asleep => cases ht
  | woken =>
    dsimp only at ht
    split at ht
    next hfree =>
      cases ht
      exact h.testing hfree
    next => cases ht

/-- A thread goes on: if the one that waits could go on before, it is notified as before, or it is notified by this thread. -/
theorem goOn (hthreads : t.threads = Function.update s.threads i next) (hothers : ∀ j, j ≠ i → t.holds j = s.holds j)
    (hnext : next.Disciplined w.ready (t.holds i)) (hunowned : t.phase.locked = true → t.owner = none)
    (halerted : t.phase = .refused ∨ t.phase = .asleep → w.ready t.shared = true →
      (t.phase = s.phase ∧ w.ready s.shared = true ∧
        ((s.threads i).Notifies s.phase.locked (s.holds i) → next.Notifies s.phase.locked (t.holds i))) ∨
      next.Notifies t.phase.locked (t.holds i)) : Sound w t where
  disciplined j := by
    rw [hthreads]
    by_cases hji : j = i
    · subst hji
      rw [Function.update_self]
      exact hnext
    · rw [Function.update_of_ne hji, hothers j hji]
      exact h.disciplined j
  unowned := hunowned
  alerted hphase hready := by
    have hmine (hnotifies : next.Notifies t.phase.locked (t.holds i)) : ∃ j, (t.threads j).Notifies t.phase.locked (t.holds j) := by
      refine ⟨i, ?_⟩
      rw [hthreads, Function.update_self]
      exact hnotifies
    rcases halerted hphase hready with ⟨hsame, hbefore, hgoes⟩ | hnotifies
    · rw [hsame] at hphase hmine ⊢
      obtain ⟨j, hj⟩ := h.alerted hphase hbefore
      by_cases hji : j = i
      · subst hji
        exact hmine (hgoes hj)
      · refine ⟨j, ?_⟩
        rw [hthreads, Function.update_of_ne hji, hothers j hji]
        exact hj
    · exact hmine hnotifies

theorem acquire (hprogram : s.threads i = .acquire next) (hfree : s.free = true) :
    Sound w { s with owner := some i, threads := Function.update s.threads i next } := by
  obtain ⟨hnone, hunlocked⟩ := free_iff.mp hfree
  have hdisciplined := h.disciplined i
  rw [hprogram] at hdisciplined
  generalize ht : ({ s with owner := some i, threads := Function.update s.threads i next } : State σ ι) = t
  have howner : t.owner = some i := by rw [← ht]
  have hmine : t.holds i = true := holds_iff.mpr howner
  have hphase : t.phase = s.phase := by rw [← ht]
  have hshared : t.shared = s.shared := by rw [← ht]
  refine h.goOn (by rw [← ht]) (fun j hji => by rw [holds_of_some howner j hji, holds_of_none hnone]) (by rw [hmine]; exact hdisciplined.2) ?_ ?_
  · intro hlocked
    rw [hphase, hunlocked] at hlocked
    cases hlocked
  · intro _ hready
    rw [hshared] at hready
    refine Or.inl ⟨hphase, hready, fun hold => ?_⟩
    rw [hprogram] at hold
    rw [hmine]
    exact hold

theorem release (hprogram : s.threads i = .release next) (howner : s.owner = some i) :
    Sound w { s with owner := none, threads := Function.update s.threads i next } := by
  have hdisciplined := h.disciplined i
  rw [hprogram] at hdisciplined
  generalize ht : ({ s with owner := none, threads := Function.update s.threads i next } : State σ ι) = t
  have hnone : t.owner = none := by rw [← ht]
  have hmine : t.holds i = false := holds_of_none hnone i
  have hphase : t.phase = s.phase := by rw [← ht]
  have hshared : t.shared = s.shared := by rw [← ht]
  refine h.goOn (by rw [← ht]) (fun j hji => by rw [holds_of_none hnone, holds_of_some howner j hji]) (by rw [hmine]; exact hdisciplined.2)
    (fun _ => hnone) ?_
  intro _ hready
  rw [hshared] at hready
  refine Or.inl ⟨hphase, hready, fun hold => ?_⟩
  rw [hprogram] at hold
  rw [hmine]
  exact hold

theorem notify (hprogram : s.threads i = .notify next) :
    Sound w { s with phase := s.phase.notified, threads := Function.update s.threads i next } := by
  have hdisciplined := h.disciplined i
  rw [hprogram] at hdisciplined
  refine h.goOn rfl (fun _ _ => rfl) hdisciplined (fun hlocked => h.unowned ?_) fun hphase hready => ?_
  · dsimp only at hlocked
    cases hs : s.phase <;> rw [hs] at hlocked <;> first | rfl | cases hlocked
  · have hrefused : s.phase = .refused := by
      dsimp only at hphase
      cases hs : s.phase <;> rw [hs] at hphase <;> rcases hphase with hphase | hphase <;> first | rfl | cases hphase
    -- the thread that waits has the mutex, so this notification was not made under it
    have howner := h.unowned (by rw [hrefused]; rfl)
    refine Or.inl ⟨by rw [hrefused]; rfl, hready, fun hold => ?_⟩
    rw [hprogram, hrefused, holds_of_none howner] at hold
    rcases hold with hold | hold | hold
    · cases hold
    · cases hold
    · rw [hrefused]
      show next.Notifies true (s.holds i)
      rw [holds_of_none howner]
      exact hold

theorem update {f : σ → σ} (hprogram : s.threads i = .update f next) :
    Sound w { s with shared := f s.shared, threads := Function.update s.threads i next } := by
  have hdisciplined := h.disciplined i
  rw [hprogram] at hdisciplined
  obtain ⟨hchange, hnext⟩ := hdisciplined
  refine h.goOn rfl (fun _ _ => rfl) hnext h.unowned fun hphase hready => ?_
  rcases hchange with hkeeps | hnotifies
  · refine Or.inl ⟨rfl, hkeeps _ hready, fun hold => ?_⟩
    rw [hprogram] at hold
    exact hold
  · right
    show next.Notifies s.phase.locked (s.holds i)
    rcases hphase with hphase | hphase
    · rw [hphase]
      have howner := h.unowned (by rw [hphase]; rfl)
      rw [holds_of_none howner] at hnotifies ⊢
      exact hnotifies
    · rw [hphase]
      exact hnotifies.anyhow

theorem branch {condition : σ → Bool} {yes no : Program σ} (hprogram : s.threads i = .branch condition yes no) :
    Sound w { s with threads := Function.update s.threads i (if condition s.shared then yes else no) } := by
  have hdisciplined := h.disciplined i
  rw [hprogram] at hdisciplined
  refine h.goOn rfl (fun _ _ => rfl) ?_ h.unowned fun _ hready => Or.inl ⟨rfl, hready, fun hold => ?_⟩
  · cases condition s.shared with
    | true => exact hdisciplined.1
    | false => exact hdisciplined.2
  · rw [hprogram] at hold
    cases condition s.shared with
    | true => exact hold.1
    | false => exact hold.2

theorem advance (ht : s.advance i = some t) : Sound w t := by
  unfold State.advance at ht
  split at ht
  next => cases ht
  next hprogram =>
    split at ht
    next hfree =>
      cases ht
      exact h.acquire hprogram hfree
    next => cases ht
  next hprogram =>
    split at ht
    next howner =>
      cases ht
      exact h.release hprogram howner
    next => cases ht
  next hprogram =>
    cases ht
    exact h.notify hprogram
  next hprogram =>
    cases ht
    exact h.update hprogram
  next hprogram =>
    cases ht
    exact h.branch hprogram

theorem step {action : Action ι} (ht : step w s action = some t) : Sound w t := by
  cases action with
  | work => exact h.work ht
  | wake =>
    unfold ConditionVariable.step at ht
    dsimp only at ht
    split at ht
    next =>
      cases ht
      exact h.woken
    next => cases ht
  | thread i => exact h.advance ht

end Sound

theorem reaches_sound {allowed : State σ ι → Action ι → Prop} {shared : σ} {threads : ι → Program σ}
    (hthreads : ∀ i, (threads i).Disciplined w.ready false) (h : Runs.Reaches (step w) allowed (start shared threads) s) : Sound w s :=
  h.keeps (start_sound hthreads) fun hs _ ht => hs.step ht

/-- Nobody can take a step, unless the thread that sleeps wakes up by itself. -/
def Quiet (w : Waiting σ) (s : State σ ι) : Prop := w.step s = none ∧ ∀ i, s.advance i = none

section Quiet

variable (h : Sound w s) (hothers : ∀ i, s.advance i = none)
include h hothers

theorem Sound.owner_of_quiet : s.owner = none := by
  by_contra howned
  obtain ⟨i, howner⟩ := Option.ne_none_iff_exists'.mp howned
  have hdisciplined := h.disciplined i
  rw [holds_iff.mpr howner] at hdisciplined
  have hstuck := hothers i
  unfold State.advance at hstuck
  split at hstuck
  next hprogram =>
    rw [hprogram] at hdisciplined
    cases hdisciplined
  next hprogram =>
    rw [hprogram] at hdisciplined
    cases hdisciplined.1
  next =>
    rw [if_pos howner] at hstuck
    cases hstuck
  next => cases hstuck
  next => cases hstuck
  next => cases hstuck

theorem Sound.done_of_quiet (hunlocked : s.phase.locked = false) (i : ι) : s.threads i = .done := by
  have hnone := h.owner_of_quiet hothers
  have hdisciplined := h.disciplined i
  have hstuck := hothers i
  unfold State.advance at hstuck
  split at hstuck
  next hprogram => exact hprogram
  next =>
    rw [if_pos (free_iff.mpr ⟨hnone, hunlocked⟩)] at hstuck
    cases hstuck
  next hprogram =>
    rw [hprogram, holds_of_none hnone] at hdisciplined
    cases hdisciplined.1
  next => cases hstuck
  next => cases hstuck
  next => cases hstuck

end Quiet

/-- Where nobody can take a step, the others are done, and the thread that waits has a reason to. -/
theorem Sound.quiet (h : Sound w s) (hquiet : Quiet w s) : (∀ i, s.threads i = .done) ∧
    (s.phase = .asleep ∧ w.ready s.shared = false ∨ s.phase = .running ∧ w.waits s.shared = false ∧ w.work s.shared = none) := by
  obtain ⟨hwork, hothers⟩ := hquiet
  have hnone := h.owner_of_quiet hothers
  have hdone := h.done_of_quiet hothers
  unfold Waiting.step at hwork
  split at hwork
  next hphase =>
    have hunlocked : s.phase.locked = false := by rw [hphase]; rfl
    have hfree := free_iff.mpr ⟨hnone, hunlocked⟩
    refine ⟨hdone hunlocked, Or.inr ⟨hphase, ?_⟩⟩
    rw [hfree, Bool.not_true, Bool.and_false, if_neg Bool.false_ne_true] at hwork
    split at hwork
    next => cases hwork
    next hwaits => exact ⟨Bool.not_eq_true _ ▸ hwaits, Option.map_eq_none_iff.mp hwork⟩
  next => cases hwork
  next => cases hwork
  next hphase =>
    have hunlocked : s.phase.locked = false := by rw [hphase]; rfl
    refine ⟨hdone hunlocked, Or.inl ⟨hphase, ?_⟩⟩
    by_contra hready
    obtain ⟨i, hi⟩ := h.alerted (Or.inr hphase) (Bool.not_eq_false _ ▸ hready)
    rw [hdone hunlocked i] at hi
    exact hi
  next hphase =>
    have hfree := free_iff.mpr ⟨hnone, by rw [hphase]; rfl⟩
    rw [if_pos hfree] at hwork
    cases hwork

/-- What remains of a program after a step of it, and the shared state. -/
inductive Program.Goes (shared : σ) : Program σ → Program σ → σ → Prop
  | acquire {p} : Goes shared (.acquire p) p shared
  | release {p} : Goes shared (.release p) p shared
  | notify {p} : Goes shared (.notify p) p shared
  | update {f p} : Goes shared (.update f p) p (f shared)
  | branch {condition yes no} : Goes shared (.branch condition yes no) (if condition shared then yes else no) shared

theorem goes_of_advance (ht : s.advance i = some t) :
    ∃ next, (s.threads i).Goes s.shared next t.shared ∧ t.threads = Function.update s.threads i next ∧
      (s.phase = .running → t.phase = .running) := by
  unfold State.advance at ht
  split at ht
  next => cases ht
  next next hprogram =>
    split at ht
    next =>
      cases ht
      exact ⟨next, hprogram ▸ .acquire, rfl, id⟩
    next => cases ht
  next next hprogram =>
    split at ht
    next =>
      cases ht
      exact ⟨next, hprogram ▸ .release, rfl, id⟩
    next => cases ht
  next next hprogram =>
    cases ht
    exact ⟨next, hprogram ▸ .notify, rfl, fun hrunning => by rw [hrunning]; rfl⟩
  next f next hprogram =>
    cases ht
    exact ⟨next, hprogram ▸ .update, rfl, id⟩
  next condition yes no hprogram =>
    cases ht
    exact ⟨_, hprogram ▸ .branch, rfl, id⟩

omit [DecidableEq ι] in
/-- The thread that waits leaves the programs of the others as they are. -/
theorem changes_of_work (ht : w.step s = some t) : t.threads = s.threads ∧
    (t.shared = s.shared ∨ w.work s.shared = some t.shared ∨ t.shared = w.resume s.shared) := by
  unfold Waiting.step at ht
  split at ht
  next =>
    split at ht
    next =>
      split at ht
      next => cases ht; exact ⟨rfl, Or.inl rfl⟩
      next => cases ht
    next =>
      split at ht
      next => cases ht
      next =>
        obtain ⟨shared, hshared, rfl⟩ := Option.map_eq_some_iff.mp ht
        exact ⟨rfl, Or.inr (Or.inl hshared)⟩
  next =>
    cases ht
    split
    next => exact ⟨rfl, Or.inr (Or.inr rfl)⟩
    next => exact ⟨rfl, Or.inl rfl⟩
  next => cases ht; exact ⟨rfl, Or.inl rfl⟩
  next => cases ht
  next =>
    split at ht
    next => cases ht; exact ⟨rfl, Or.inl rfl⟩
    next => cases ht

theorem changes_of_wake (ht : step w s .wake = some t) : t.threads = s.threads ∧ t.shared = s.shared := by
  unfold step at ht
  dsimp only at ht
  split at ht
  next => cases ht; exact ⟨rfl, rfl⟩
  next => cases ht

section Goes

variable {p : Program σ} {shared shared' : σ} {goal : σ → Prop} (h : p.Goes shared next shared')
include h

theorem Program.Goes.makes {allowed : (σ → σ) → Prop} (hmakes : p.Makes allowed) :
    next.Makes allowed ∧ (shared' = shared ∨ ∃ f, allowed f ∧ shared' = f shared) := by
  cases h with
  | acquire => exact ⟨hmakes, Or.inl rfl⟩
  | release => exact ⟨hmakes, Or.inl rfl⟩
  | notify => exact ⟨hmakes, Or.inl rfl⟩
  | update => exact ⟨hmakes.2, Or.inr ⟨_, hmakes.1, rfl⟩⟩
  | branch =>
    refine ⟨?_, Or.inl rfl⟩
    split
    next => exact hmakes.1
    next => exact hmakes.2

theorem Program.Goes.brings (hbrings : p.Brings goal) : goal shared' ∨ next.Brings goal := by
  cases h with
  | acquire => exact Or.inr hbrings
  | release => exact Or.inr hbrings
  | notify => exact Or.inr hbrings
  | update => exact hbrings.imp_left fun hgoal => hgoal shared
  | @branch condition yes no =>
    cases hcondition : condition shared with
    | true => exact hbrings.1.imp_left fun hgoal => hgoal _ hcondition
    | false => exact hbrings.2.imp_left fun hgoal => hgoal _ hcondition

theorem Program.Goes.countsOnce {count : σ → Nat} (honce : p.CountsOnce count) :
    count shared' = count shared ∧ next.CountsOnce count ∨
      count shared' ≤ count shared + 1 ∧ next.Makes fun f => ∀ s, count (f s) = count s := by
  cases h with
  | acquire => exact Or.inl ⟨rfl, honce⟩
  | release => exact Or.inl ⟨rfl, honce⟩
  | notify => exact Or.inl ⟨rfl, honce⟩
  | update => exact honce.imp (fun hkeeps => ⟨hkeeps.1 shared, hkeeps.2⟩) fun hcounts => ⟨hcounts.1 shared, hcounts.2⟩
  | branch =>
    refine Or.inl ⟨rfl, ?_⟩
    split
    next => exact honce.1
    next => exact honce.2

end Goes

/-- What no step of a thread can end, as far as it leads from a state of which something is known to another one. -/
structure Keeps (w : Waiting σ) (known goal : σ → Prop) (threads : ι → Program σ) : Prop where
  work : ∀ {shared next}, known shared → known next → w.waits shared = false → goal shared → w.work shared = some next → goal next
  resume : ∀ {shared}, known shared → known (w.resume shared) → w.waits shared = true → w.ready shared = true → goal shared →
    goal (w.resume shared)
  makes : ∀ i, (threads i).Makes fun f =>
    ∀ shared, (known shared → known (f shared) → goal shared → goal (f shared)) ∧ w.waits (f shared) = w.waits shared

/-- Nothing is known. -/
def anyState (_ : σ) : Prop := True

section Keeps

variable {known goal : σ → Prop}

/-- What such a state stays for ever, if the thread that waits is still where it waits. -/
structure Kept (w : Waiting σ) (known goal : σ → Prop) (s : State σ ι) : Prop where
  keeps : Keeps w known goal s.threads
  waits : s.phase ≠ .running → w.waits s.shared = true

namespace Kept

variable (h : Kept w known goal s)
include h

theorem advance (ht : s.advance i = some t) : Kept w known goal t ∧ (known s.shared → known t.shared → goal s.shared → goal t.shared) := by
  obtain ⟨next, hgoes, hthreads, hphase⟩ := goes_of_advance ht
  obtain ⟨hnext, hshared⟩ := hgoes.makes (h.keeps.makes i)
  refine ⟨⟨⟨h.keeps.work, h.keeps.resume, fun j => ?_⟩, fun hrunning => ?_⟩, fun hknown hknownNext hgoal => ?_⟩
  · rw [hthreads]
    by_cases hji : j = i
    · subst hji
      rw [Function.update_self]
      exact hnext
    · rw [Function.update_of_ne hji]
      exact h.keeps.makes j
  · have hwaits := h.waits fun hbefore => hrunning (hphase hbefore)
    rcases hshared with hsame | ⟨f, hf, hsame⟩
    · rw [hsame]
      exact hwaits
    · rw [hsame, (hf s.shared).2]
      exact hwaits
  · rcases hshared with hsame | ⟨f, hf, hsame⟩
    · rw [hsame]
      exact hgoal
    · rw [hsame] at hknownNext ⊢
      exact (hf s.shared).1 hknown hknownNext hgoal

omit [DecidableEq ι] in
theorem work (ht : w.step s = some t) : Kept w known goal t ∧ (known s.shared → known t.shared → goal s.shared → goal t.shared) := by
  unfold Waiting.step at ht
  split at ht
  next hphase =>
    split at ht
    next hwaits =>
      split at ht
      next =>
        cases ht
        exact ⟨⟨h.keeps, fun _ => hwaits⟩, fun _ _ => id⟩
      next => cases ht
    next hwaits =>
      split at ht
      next => cases ht
      next =>
        obtain ⟨shared, hshared, rfl⟩ := Option.map_eq_some_iff.mp ht
        exact ⟨⟨h.keeps, fun hrunning => absurd hphase hrunning⟩,
          fun hknown hknownNext hgoal => h.keeps.work hknown hknownNext (Bool.not_eq_true _ ▸ hwaits) hgoal hshared⟩
  next hphase =>
    have hwaits := h.waits fun hrunning => Phase.noConfusion (hphase.symm.trans hrunning)
    cases ht
    split
    next hready =>
      exact ⟨⟨h.keeps, fun hrunning => absurd rfl hrunning⟩, fun hknown hknownNext hgoal => h.keeps.resume hknown hknownNext hwaits hready hgoal⟩
    next => exact ⟨⟨h.keeps, fun _ => hwaits⟩, fun _ _ => id⟩
  next hphase =>
    have hwaits := h.waits fun hrunning => Phase.noConfusion (hphase.symm.trans hrunning)
    cases ht
    exact ⟨⟨h.keeps, fun _ => hwaits⟩, fun _ _ => id⟩
  next => cases ht
  next hphase =>
    have hwaits := h.waits fun hrunning => Phase.noConfusion (hphase.symm.trans hrunning)
    split at ht
    next =>
      cases ht
      exact ⟨⟨h.keeps, fun _ => hwaits⟩, fun _ _ => id⟩
    next => cases ht

theorem step {action : Action ι} (ht : step w s action = some t) :
    Kept w known goal t ∧ (known s.shared → known t.shared → goal s.shared → goal t.shared) := by
  cases action with
  | work => exact h.work ht
  | wake =>
    unfold ConditionVariable.step at ht
    dsimp only at ht
    split at ht
    next hphase =>
      have hwaits := h.waits fun hrunning => Phase.noConfusion (hphase.symm.trans hrunning)
      cases ht
      exact ⟨⟨h.keeps, fun _ => hwaits⟩, fun _ _ => id⟩
    next => cases ht
  | thread i => exact h.advance ht

/-- A thread that brings something about has done so, or it still will. -/
theorem brings (hknown : known s.shared) (hknownNext : known t.shared) (hbrings : goal s.shared ∨ (s.threads i).Brings goal) {action : Action ι}
    (ht : ConditionVariable.step w s action = some t) : goal t.shared ∨ (t.threads i).Brings goal := by
  rcases hbrings with hgoal | hbrings
  · exact Or.inl ((h.step ht).2 hknown hknownNext hgoal)
  cases action with
  | work =>
    rw [(changes_of_work ht).1]
    exact Or.inr hbrings
  | wake =>
    rw [(changes_of_wake ht).1]
    exact Or.inr hbrings
  | thread j =>
    obtain ⟨next, hgoes, hthreads, -⟩ := goes_of_advance (show s.advance j = some t from ht)
    rw [hthreads]
    by_cases hij : i = j
    · subst hij
      rw [Function.update_self]
      exact hgoes.brings hbrings
    · rw [Function.update_of_ne hij]
      exact Or.inr hbrings

end Kept

variable {allowed : State σ ι → Action ι → Prop} {shared : σ} {threads : ι → Program σ}
  (hkeeps : Keeps w known goal threads) (h : Runs.Reaches (step w) allowed (start shared threads) s)
include hkeeps h

theorem kept_of_reaches : Kept w known goal s :=
  h.keeps ⟨hkeeps, fun hrunning => absurd rfl hrunning⟩ fun hs _ ht => (hs.step ht).1

variable (hknown : ∀ {s}, Runs.Reaches (step w) allowed (start shared threads) s → known s.shared)
include hknown

theorem keeps_of_reaches (hgoal : goal shared) : goal s.shared := by
  induction h with
  | refl => exact hgoal
  | tail hbefore hallowed ht ih =>
    exact ((kept_of_reaches hkeeps hbefore).step ht).2 (hknown hbefore) (hknown (.tail hbefore hallowed ht)) ih

theorem brings_of_reaches (hbrings : (threads i).Brings goal) : goal s.shared ∨ (s.threads i).Brings goal := by
  induction h with
  | refl => exact Or.inr hbrings
  | tail hbefore hallowed ht ih =>
    exact (kept_of_reaches hkeeps hbefore).brings (hknown hbefore) (hknown (.tail hbefore hallowed ht)) ih ht

end Keeps

section Outlines

/-- A proof outline: an assertion before each change and each branch of a program, all of them fine, and what holds in the end. -/
def Program.Outline (fine : (σ → Prop) → Prop) (post : σ → Prop) : (σ → Prop) → Program σ → Prop
  | pre, .done => ∀ s, pre s → post s
  | pre, .acquire next | pre, .release next | pre, .notify next => Outline fine post pre next
  | pre, .update f next => ∃ mid, fine mid ∧ (∀ s, pre s → mid (f s)) ∧ Outline fine post mid next
  | pre, .branch condition yes no =>
    (∃ mid, fine mid ∧ (∀ s, pre s → condition s = true → mid s) ∧ Outline fine post mid yes) ∧
      ∃ mid, fine mid ∧ (∀ s, pre s → condition s = false → mid s) ∧ Outline fine post mid no

/-- What one thread asserts no other one can end. -/
structure Stable (w : Waiting σ) (i : ι) (threads : ι → Program σ) (assertion : σ → Prop) : Prop where
  work : ∀ {shared next}, assertion shared → w.work shared = some next → assertion next
  resume : ∀ {shared}, assertion shared → assertion (w.resume shared)
  others : ∀ j, j ≠ i → (threads j).Makes fun f => ∀ shared, assertion shared → assertion (f shared)

variable {fine : (σ → Prop) → Prop} {post pre : σ → Prop}

theorem Program.Goes.outline {p : Program σ} {shared shared' : σ} (h : p.Goes shared next shared') (houtline : p.Outline fine post pre)
    (hfine : fine pre) (hpre : pre shared) : ∃ mid, fine mid ∧ mid shared' ∧ next.Outline fine post mid := by
  cases h with
  | acquire => exact ⟨pre, hfine, hpre, houtline⟩
  | release => exact ⟨pre, hfine, hpre, houtline⟩
  | notify => exact ⟨pre, hfine, hpre, houtline⟩
  | update =>
    obtain ⟨mid, hmid, hholds, hnext⟩ := houtline
    exact ⟨mid, hmid, hholds _ hpre, hnext⟩
  | @branch condition yes no =>
    obtain ⟨⟨mid, hmid, hholds, hyes⟩, mid', hmid', hholds', hno⟩ := houtline
    cases hcondition : condition shared with
    | true => exact ⟨mid, hmid, hholds _ hpre hcondition, hyes⟩
    | false => exact ⟨mid', hmid', hholds' _ hpre hcondition, hno⟩

/-- The threads other than one, whose outline is followed. -/
structure Followed (w : Waiting σ) (fine : (σ → Prop) → Prop) (post : σ → Prop) (i : ι) (s : State σ ι) : Prop where
  stable : ∀ assertion, fine assertion → Stable w i s.threads assertion
  outline : ∃ pre, fine pre ∧ pre s.shared ∧ (s.threads i).Outline fine post pre

theorem Followed.step (h : Followed w fine post i s) {action : Action ι} (ht : ConditionVariable.step w s action = some t) :
    Followed w fine post i t := by
  obtain ⟨hstable, pre, hfine, hpre, houtline⟩ := h
  cases action with
  | work =>
    obtain ⟨hthreads, hshared⟩ := changes_of_work ht
    refine ⟨by rw [hthreads]; exact hstable, pre, hfine, ?_, by rw [hthreads]; exact houtline⟩
    rcases hshared with hsame | hwork | hresume
    · rw [hsame]
      exact hpre
    · exact (hstable pre hfine).work hpre hwork
    · rw [hresume]
      exact (hstable pre hfine).resume hpre
  | wake =>
    obtain ⟨hthreads, hshared⟩ := changes_of_wake ht
    exact ⟨by rw [hthreads]; exact hstable, pre, hfine, by rw [hshared]; exact hpre, by rw [hthreads]; exact houtline⟩
  | thread j =>
    obtain ⟨next, hgoes, hthreads, -⟩ := goes_of_advance (show s.advance j = some t from ht)
    by_cases hji : j = i
    · subst hji
      obtain ⟨mid, hmid, hholds, hnext⟩ := hgoes.outline houtline hfine hpre
      refine ⟨fun assertion hassertion => ?_, mid, hmid, hholds, by rw [hthreads, Function.update_self]; exact hnext⟩
      obtain ⟨hwork, hresume, hothers⟩ := hstable assertion hassertion
      refine ⟨hwork, hresume, fun k hk => ?_⟩
      rw [hthreads, Function.update_of_ne hk]
      exact hothers k hk
    · refine ⟨fun assertion hassertion => ?_, pre, hfine, ?_, by rw [hthreads, Function.update_of_ne (Ne.symm hji)]; exact houtline⟩
      · obtain ⟨hwork, hresume, hothers⟩ := hstable assertion hassertion
        refine ⟨hwork, hresume, fun k hk => ?_⟩
        rw [hthreads]
        by_cases hkj : k = j
        · subst hkj
          rw [Function.update_self]
          exact (hgoes.makes (hothers k hk)).1
        · rw [Function.update_of_ne hkj]
          exact hothers k hk
      · rcases (hgoes.makes ((hstable pre hfine).others j hji)).2 with hsame | ⟨f, hf, hsame⟩
        · rw [hsame]
          exact hpre
        · rw [hsame]
          exact hf s.shared hpre

variable {allowed : State σ ι → Action ι → Prop} {shared : σ} {threads : ι → Program σ}
  (h : Runs.Reaches (step w) allowed (start shared threads) s) (hstable : ∀ assertion, fine assertion → Stable w i threads assertion)
  (hfine : fine pre) (hpre : pre shared) (houtline : (threads i).Outline fine post pre)
include h hstable hfine hpre houtline

/-- At any time some assertion of the outline holds. -/
theorem asserts_of_reaches : ∃ assertion, fine assertion ∧ assertion s.shared := by
  have hfollowed : Followed w fine post i s := h.keeps ⟨hstable, pre, hfine, hpre, houtline⟩ fun hs _ ht => hs.step ht
  obtain ⟨assertion, hassertion, hholds, -⟩ := hfollowed.outline
  exact ⟨assertion, hassertion, hholds⟩

theorem post_of_reaches (hdone : s.threads i = .done) : post s.shared := by
  have hfollowed : Followed w fine post i s := h.keeps ⟨hstable, pre, hfine, hpre, houtline⟩ fun hs _ ht => hs.step ht
  obtain ⟨assertion, -, hholds, hrest⟩ := hfollowed.outline
  rw [hdone] at hrest
  exact hrest _ hholds

end Outlines

section Counts

variable {count : σ → Nat} {n : Nat} (hwork : ∀ {x y}, w.work x = some y → count y = count x) (hresume : ∀ x, count (w.resume x) = count x)

/-- One thread counts once, and it has counted, or nobody has. -/
structure Counted (count : σ → Nat) (n : Nat) (i : ι) (s : State σ ι) : Prop where
  others : ∀ j, j ≠ i → (s.threads j).Makes fun f => ∀ x, count (f x) = count x
  once : count s.shared = n ∧ (s.threads i).CountsOnce count ∨
    count s.shared ≤ n + 1 ∧ (s.threads i).Makes fun f => ∀ x, count (f x) = count x

include hwork hresume

omit [DecidableEq ι] in
theorem count_of_work (ht : w.step s = some t) : count t.shared = count s.shared := by
  rcases (changes_of_work ht).2 with hsame | hchanged | hresumed
  · rw [hsame]
  · exact hwork hchanged
  · rw [hresumed, hresume]

theorem Counted.step (h : Counted count n i s) {action : Action ι} (ht : ConditionVariable.step w s action = some t) : Counted count n i t := by
  cases action with
  | work =>
    have hthreads := (changes_of_work ht).1
    refine ⟨by rw [hthreads]; exact h.others, ?_⟩
    rw [hthreads, count_of_work hwork hresume ht]
    exact h.once
  | wake =>
    obtain ⟨hthreads, hshared⟩ := changes_of_wake ht
    refine ⟨by rw [hthreads]; exact h.others, ?_⟩
    rw [hthreads, hshared]
    exact h.once
  | thread j =>
    obtain ⟨next, hgoes, hthreads, -⟩ := goes_of_advance (show s.advance j = some t from ht)
    by_cases hji : j = i
    · subst hji
      refine ⟨fun k hk => ?_, ?_⟩
      · rw [hthreads, Function.update_of_ne hk]
        exact h.others k hk
      · rw [hthreads, Function.update_self]
        rcases h.once with ⟨hzero, honce⟩ | ⟨hone, hmakes⟩
        · rcases hgoes.countsOnce honce with ⟨hsame, honce⟩ | ⟨hmore, hmakes⟩
          · exact Or.inl ⟨hsame.trans hzero, honce⟩
          · exact Or.inr ⟨by omega, hmakes⟩
        · obtain ⟨hnext, hsame | ⟨f, hf, hsame⟩⟩ := hgoes.makes hmakes
          · exact Or.inr ⟨by rw [hsame]; exact hone, hnext⟩
          · exact Or.inr ⟨by rw [hsame, hf]; exact hone, hnext⟩
    · obtain ⟨hnext, hshared⟩ := hgoes.makes (h.others j hji)
      have hsame : count t.shared = count s.shared := by
        rcases hshared with hsame | ⟨f, hf, hsame⟩
        · rw [hsame]
        · rw [hsame, hf]
      refine ⟨fun k hk => ?_, ?_⟩
      · rw [hthreads]
        by_cases hkj : k = j
        · subst hkj
          rw [Function.update_self]
          exact hnext
        · rw [Function.update_of_ne hkj]
          exact h.others k hk
      · rw [hthreads, Function.update_of_ne (Ne.symm hji), hsame]
        exact h.once

variable (count) in
theorem counts_of_reaches {allowed : State σ ι → Action ι → Prop} {shared : σ} {threads : ι → Program σ} (i : ι)
    (hothers : ∀ j, j ≠ i → (threads j).Makes fun f => ∀ x, count (f x) = count x) (honce : (threads i).CountsOnce count)
    (h : Runs.Reaches (step w) allowed (start shared threads) s) : count s.shared ≤ count shared + 1 := by
  have hcounted : Counted count (count shared) i s :=
    h.keeps ⟨hothers, Or.inl ⟨rfl, honce⟩⟩ fun hs _ ht => hs.step hwork hresume ht
  rcases hcounted.once with ⟨hsame, -⟩ | ⟨hmore, -⟩
  · omega
  · exact hmore

end Counts

end Steps

end ConditionVariable
