import ModelServer.Runs
import Mathlib.Data.Fintype.Card
import Mathlib.Data.Finset.Card

namespace GuardedResource

/-- The guard of a reader, before and after it has found the resource available. -/
inductive Hold
  | none
  | tentative
  | confirmed
deriving DecidableEq

/-- How far the writer has got. -/
inductive Phase
  | opened
  | closed
  | drained
deriving DecidableEq

def Phase.close : Phase → Phase
  | .opened | .closed => .closed
  | .drained => .drained

/-- A resource that readers use under guards, which are counted, and that a writer replaces once it has made the
resource unavailable and has seen the count at zero. -/
structure State (ι : Type*) where
  hold : ι → Hold
  count : Int
  available : Bool
  phase : Phase

inductive Action (ι : Type*)
  | raise (reader : ι)
  | confirm (reader : ι)
  | drop (reader : ι)
  | close
  | drain
  | reopen
  /-- The writer goes away. -/
  | leave
  /-- A reader gets its guard from the writer. -/
  | adopt (reader : ι)

variable {ι : Type*} [DecidableEq ι]

def step (s : State ι) : Action ι → Option (State ι)
  | .raise reader =>
    if s.hold reader = .none then
      some { s with hold := Function.update s.hold reader .tentative, count := s.count + 1 }
    else none
  | .confirm reader =>
    if s.hold reader = .tentative ∧ s.available = true then
      some { s with hold := Function.update s.hold reader .confirmed }
    else none
  | .drop reader =>
    if s.hold reader = .none then none
    else some { s with hold := Function.update s.hold reader .none, count := s.count - 1 }
  | .close => some { s with available := false, phase := s.phase.close }
  | .drain => if s.phase ≠ .opened ∧ s.count = 0 then some { s with phase := .drained } else none
  | .reopen => some { s with available := true, phase := .opened }
  | .leave => some { s with phase := .opened }
  | .adopt reader =>
    if s.hold reader = .none ∧ s.phase ≠ .drained then
      some { s with hold := Function.update s.hold reader .confirmed, count := s.count + 1 }
    else none

/-- Nobody has a guard yet. -/
def start (available : Bool) : State ι := ⟨fun _ => .none, 0, available, .opened⟩

section Represents

variable {κ : Type*} {hold : κ → Hold} {threads : ι → κ} {count : Int} {available : Bool} {a : State ι} {thread : ι}

/-- The resource of a system whose threads have guards as `hold` says, and which counts them so. -/
structure Represents (hold : κ → Hold) (threads : ι → κ) (count : Int) (available : Bool) (a : State ι) : Prop where
  hold_eq : a.hold = hold ∘ threads
  count_eq : a.count = count
  available_eq : a.available = available

namespace Represents

variable (h : Represents hold threads count available a) (next : κ)
include h

omit [DecidableEq ι] in
theorem hold_thread : a.hold thread = hold (threads thread) := congrFun h.hold_eq thread

theorem stays (hnext : hold next = hold (threads thread)) :
    Represents hold (Function.update threads thread next) count available a where
  hold_eq := by
    rw [Function.comp_update, hnext, ← h.hold_eq, ← h.hold_thread, Function.update_eq_self]
  count_eq := h.count_eq
  available_eq := h.available_eq

theorem raises (hnone : hold (threads thread) = .none) (hnext : hold next = .tentative) :
    ∃ b, step a (.raise thread) = some b ∧ b.phase = a.phase ∧
      Represents hold (Function.update threads thread next) (count + 1) available b := by
  refine ⟨_, if_pos (h.hold_thread.trans hnone), rfl, ?_, congrArg (· + 1) h.count_eq, h.available_eq⟩
  rw [Function.comp_update, hnext, ← h.hold_eq]

theorem confirms (htentative : hold (threads thread) = .tentative) (havailable : available = true)
    (hnext : hold next = .confirmed) :
    ∃ b, step a (.confirm thread) = some b ∧ b.phase = a.phase ∧
      Represents hold (Function.update threads thread next) count available b := by
  refine ⟨_, if_pos ⟨h.hold_thread.trans htentative, h.available_eq.trans havailable⟩, rfl, ?_, h.count_eq, h.available_eq⟩
  rw [Function.comp_update, hnext, ← h.hold_eq]

theorem drops (hheld : hold (threads thread) ≠ .none) (hnext : hold next = .none) :
    ∃ b, step a (.drop thread) = some b ∧ b.phase = a.phase ∧
      Represents hold (Function.update threads thread next) (count - 1) available b := by
  refine ⟨_, if_neg (h.hold_thread ▸ hheld), rfl, ?_, congrArg (· - 1) h.count_eq, h.available_eq⟩
  rw [Function.comp_update, hnext, ← h.hold_eq]

theorem adopts (hnone : hold (threads thread) = .none) (hphase : a.phase ≠ .drained) (hnext : hold next = .confirmed) :
    ∃ b, step a (.adopt thread) = some b ∧ b.phase = a.phase ∧
      Represents hold (Function.update threads thread next) (count + 1) available b := by
  refine ⟨_, if_pos ⟨h.hold_thread.trans hnone, hphase⟩, rfl, ?_, congrArg (· + 1) h.count_eq, h.available_eq⟩
  rw [Function.comp_update, hnext, ← h.hold_eq]

end Represents

end Represents

variable [Fintype ι]

/-- How many guards there are. -/
def guards (hold : ι → Hold) : Nat := (Finset.univ.filter fun reader => hold reader ≠ .none).card

/-- The invariant of the protocol. -/
structure Sound (s : State ι) : Prop where
  count_eq : s.count = guards s.hold
  unavailable : s.phase ≠ .opened → s.available = false
  unused : s.phase = .drained → ∀ reader, s.hold reader ≠ .confirmed

variable {hold : ι → Hold} {reader : ι} {new : Hold} {s t : State ι} {action : Action ι}

theorem guards_raise (h : hold reader = .none) (hnew : new ≠ .none) :
    guards (Function.update hold reader new) = guards hold + 1 := by
  have hinsert : (Finset.univ.filter fun other => Function.update hold reader new other ≠ .none) =
      insert reader (Finset.univ.filter fun other => hold other ≠ .none) := by
    ext other
    by_cases heq : other = reader
    · simp [heq, hnew]
    · simp [heq]
  unfold guards
  rw [hinsert, Finset.card_insert_of_notMem (by simp [h])]

theorem guards_keep (h : hold reader ≠ .none) (hnew : new ≠ .none) :
    guards (Function.update hold reader new) = guards hold := by
  unfold guards
  congr 1
  ext other
  by_cases heq : other = reader
  · simp [heq, h, hnew]
  · simp [heq]

theorem guards_drop (h : hold reader ≠ .none) : guards (Function.update hold reader .none) + 1 = guards hold := by
  have hnone : Function.update hold reader .none reader = .none := Function.update_self _ _ _
  rw [← guards_raise hnone h, Function.update_idem, Function.update_eq_self]

omit [DecidableEq ι] in
theorem no_guards (h : guards hold = 0) (reader : ι) : hold reader = .none := by
  by_contra hheld
  have hmem : reader ∈ Finset.univ.filter fun reader => hold reader ≠ .none := by simp [hheld]
  rw [Finset.card_eq_zero.mp h] at hmem
  exact Finset.notMem_empty reader hmem

omit [Fintype ι] in
theorem update_ne_confirmed (hnew : new ≠ .confirmed) (h : ∀ other, hold other ≠ .confirmed) (other : ι) :
    Function.update hold reader new other ≠ .confirmed := by
  by_cases heq : other = reader
  · rwa [heq, Function.update_self]
  · rw [Function.update_of_ne heq]
    exact h other

omit [DecidableEq ι] in
theorem sound_start (available : Bool) : Sound (start available : State ι) where
  count_eq := by simp [start, guards]
  unavailable hclosed := absurd rfl hclosed
  unused hdrained := by cases hdrained

theorem Sound.step (hs : Sound s) (h : step s action = some t) : Sound t := by
  obtain ⟨hcount, hunavailable, hunused⟩ := hs
  unfold GuardedResource.step at h
  cases action with
  | raise reader =>
    obtain ⟨hnone, h⟩ := Option.ite_none_right_eq_some.mp h
    cases Option.some.inj h
    refine ⟨?_, hunavailable, fun hdrained => update_ne_confirmed (by decide) (hunused hdrained)⟩
    rw [guards_raise hnone (by decide), hcount]
    rfl
  | confirm reader =>
    obtain ⟨⟨htentative, havailable⟩, h⟩ := Option.ite_none_right_eq_some.mp h
    cases Option.some.inj h
    -- a guard is confirmed while the writer has not closed the resource
    have hopened : s.phase = .opened := by
      by_contra hclosed
      rw [hunavailable hclosed] at havailable
      cases havailable
    refine ⟨?_, hunavailable, fun hdrained => absurd (hopened.symm.trans hdrained) (by decide)⟩
    rw [guards_keep (by simp [htentative]) (by decide), hcount]
  | drop reader =>
    obtain ⟨hheld, h⟩ := Option.ite_none_left_eq_some.mp h
    cases Option.some.inj h
    refine ⟨?_, hunavailable, fun hdrained => update_ne_confirmed (by decide) (hunused hdrained)⟩
    have hdrop := guards_drop hheld
    dsimp only
    omega
  | close =>
    cases Option.some.inj h
    refine ⟨hcount, fun _ => rfl, fun hdrained => hunused ?_⟩
    revert hdrained
    dsimp only
    cases s.phase <;> simp [Phase.close]
  | drain =>
    obtain ⟨⟨hclosed, hzero⟩, h⟩ := Option.ite_none_right_eq_some.mp h
    cases Option.some.inj h
    refine ⟨hcount, fun _ => hunavailable hclosed, fun _ reader => ?_⟩
    have hnone := no_guards (by omega : guards s.hold = 0) reader
    simp [hnone]
  | reopen =>
    cases Option.some.inj h
    exact ⟨hcount, fun hclosed => absurd rfl hclosed, fun hdrained => by cases hdrained⟩
  | leave =>
    cases Option.some.inj h
    exact ⟨hcount, fun hclosed => absurd rfl hclosed, fun hdrained => by cases hdrained⟩
  | adopt reader =>
    obtain ⟨⟨hnone, hnotDrained⟩, h⟩ := Option.ite_none_right_eq_some.mp h
    cases Option.some.inj h
    refine ⟨?_, hunavailable, fun hdrained => absurd hdrained hnotDrained⟩
    rw [guards_raise hnone (by decide), hcount]
    rfl

omit [Fintype ι] in
/-- One step of the resource, as a run. -/
theorem reaches_once (action : Action ι) {a b : State ι} (h : GuardedResource.step a action = some b) :
    Runs.Reaches GuardedResource.step Runs.anyStep a b :=
  .tail .refl trivial h

end GuardedResource
