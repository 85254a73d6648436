import ModelServer.ConditionVariable
import Mathlib.Data.List.Basic

/-! The executors, whose threads serve the requests that the threads of the clients hand them. -/

namespace ModelServer

open ConditionVariable (Program Waiting State)

/-- The executors that have a queue. -/
inductive ExecutorKind
  | language
  | visualLanguage
  | omni
  | speechToText
deriving DecidableEq

namespace ExecutorKind

/-- Whether `requestsQueueSize` and `hasRequests` lock the queue. -/
def locksQueries : ExecutorKind → Bool
  | .language | .speechToText => true
  | .visualLanguage | .omni => false

/-- Whether no request is added to an executor that is stopping. -/
def refusesAtEnd : ExecutorKind → Bool
  | .language | .speechToText => true
  | .visualLanguage | .omni => false

/-- Whether a request leaves the queue before it is processed, and not afterwards. -/
def popsFirst : ExecutorKind → Bool
  | .speechToText => true
  | .language | .visualLanguage | .omni => false

/-- Whether the request of a client that is gone is not processed. -/
def skipsDisconnected : ExecutorKind → Bool
  | .speechToText => false
  | .language | .visualLanguage | .omni => true

end ExecutorKind

/-- Where the thread of the executor is. -/
inductive ExecutorPc (ρ : Type*)
  | looping
  | reporting
  | asking
  | taking
  | processing (request : ρ)
  | completing (request : ρ)
  | popping
  | waiting
  | ended
deriving DecidableEq

structure Executor (ρ : Type*) where
  requests : List ρ := []
  finishExecutorThread : Bool := false
  pc : ExecutorPc ρ := .looping
  /-- The contexts that are marked so. -/
  clientDisconnected : List ρ := []
  /-- The contexts whose ready signal is set, each with its success. -/
  readySignal : List (ρ × Bool) := []
  /-- The contexts that the executor has told the client that no more comes. -/
  signalComplete : List ρ := []
  /-- Every request that was ever put into the queue. -/
  scheduled : List ρ := []

namespace Executor

variable {ρ : Type*} [DecidableEq ρ] (kind : ExecutorKind) (generate : ρ → Bool)

def hasRequests (e : Executor ρ) : Bool := !e.requests.isEmpty

/-- The predicate of `waitForRequests`. -/
def ready (e : Executor ρ) : Bool := e.hasRequests || e.finishExecutorThread

/-- The first half of `processRequest`. -/
def takeRequest (e : Executor ρ) : Option (Executor ρ) :=
  match e.requests with
  | [] => if kind.popsFirst then some { e with pc := .looping } else none
  | request :: later => some { e with pc := .processing request, requests := if kind.popsFirst then later else request :: later }

def succeeds (e : Executor ρ) (request : ρ) : Bool :=
  if kind.skipsDisconnected && e.clientDisconnected.contains request then false else generate request

/-- A step of `runExecutorLoop`, with those of `processRequest`. -/
def work (e : Executor ρ) : Option (Executor ρ) :=
  match e.pc with
  | .looping => some { e with pc := if e.finishExecutorThread then .ended else .reporting }
  | .reporting => some { e with pc := .asking }
  | .asking => some { e with pc := if e.hasRequests then .taking else .waiting }
  | .taking => e.takeRequest kind
  | .processing request =>
    some { e with pc := .completing request, readySignal := e.readySignal ++ [(request, e.succeeds kind generate request)] }
  | .completing request =>
    some { e with pc := if kind.popsFirst then .looping else .popping, signalComplete := e.signalComplete ++ [request] }
  | .popping => some { e with pc := .looping, requests := e.requests.tail }
  | .waiting | .ended => none

def locks (e : Executor ρ) : Bool :=
  match e.pc with
  | .reporting | .asking => kind.locksQueries
  | .taking => kind.popsFirst
  | .popping => true
  | .looping | .processing _ | .completing _ | .waiting | .ended => false

/-- The thread of the executor. -/
def thread : Waiting (Executor ρ) where
  ready := ready
  waits e := decide (e.pc = .waiting)
  locks := locks kind
  work := work kind generate
  resume e := { e with pc := .looping }

def push (request : ρ) (e : Executor ρ) : Executor ρ :=
  { e with requests := e.requests ++ [request], scheduled := e.scheduled ++ [request] }

def finish (e : Executor ρ) : Executor ρ := { e with finishExecutorThread := true }

def signalDisconnection (request : ρ) (e : Executor ρ) : Executor ρ :=
  { e with clientDisconnected := request :: e.clientDisconnected }

def scheduleRequest (request : ρ) : Program (Executor ρ) := .acquire (.update (push request) (.notify (.release .done)))

def addRequest (request : ρ) : Program (Executor ρ) :=
  if kind.refusesAtEnd then .branch finishExecutorThread .done (scheduleRequest request) else scheduleRequest request

def notify : Program (Executor ρ) := .acquire (.notify (.release .done))

/-- The destructor, up to where it joins the thread of the executor. -/
def destroy : Program (Executor ρ) := .update finish notify

end Executor

/-- The threads around an executor. -/
inductive Party (ρ : Type*)
  | client (request : ρ)
  | disconnection (request : ρ)
  | destructor
deriving DecidableEq

namespace Executor

variable {ρ : Type*} [DecidableEq ρ] (kind : ExecutorKind) (generate : ρ → Bool)

def program : Party ρ → Program (Executor ρ)
  | .client request => addRequest kind request
  | .disconnection request => .update (signalDisconnection request) .done
  | .destructor => destroy

/-- Only these are there. -/
def programs (present : Party ρ → Bool) (party : Party ρ) : Program (Executor ρ) :=
  if present party then program kind party else .done

/-- The requests that were not answered, in their order. -/
def unanswered (e : Executor ρ) : List ρ :=
  match e.pc with
  | .processing request => if kind.popsFirst then request :: e.requests else e.requests
  | .completing _ => if kind.popsFirst then e.requests else e.requests.tail
  | .popping => e.requests.tail
  | .looping | .reporting | .asking | .taking | .waiting | .ended => e.requests

/-- What holds of an executor at any time. -/
structure InOrder (e : Executor ρ) : Prop where
  whole : e.readySignal.map Prod.fst ++ e.unanswered kind = e.scheduled
  outcome : ∀ answer ∈ e.readySignal, answer.2 = generate answer.1 ∨ answer.2 = false ∧ answer.1 ∈ e.clientDisconnected
  completed : ∀ answer ∈ e.readySignal, answer.1 ∈ e.signalComplete ∨ e.pc = .completing answer.1
  front : kind.popsFirst = false → ∀ request, e.pc = .processing request ∨ e.pc = .completing request → ∃ later, e.requests = request :: later
  nonempty : kind.popsFirst = false → e.pc = .taking ∨ e.pc = .popping → e.requests ≠ []
  popping : e.pc = .popping → kind.popsFirst = false
  ended : e.pc = .ended → e.finishExecutorThread = true

/-- The thread of the executor has no request at hand. -/
def between (e : Executor ρ) : Bool :=
  match e.pc with
  | .looping | .reporting | .asking | .taking | .waiting | .ended => true
  | .processing _ | .completing _ | .popping => false

section InOrder

variable {kind} {generate} {e next : Executor ρ}

omit [DecidableEq ρ] in
theorem unanswered_of_between (h : e.between = true) : e.unanswered kind = e.requests := by
  obtain ⟨requests, finished, pc, disconnected, readySignal, signalComplete, scheduled⟩ := e
  cases pc <;> first | rfl | cases h

omit [DecidableEq ρ] in
theorem InOrder.moves (h : InOrder kind generate e) (hbefore : e.between = true) {pc : ExecutorPc ρ}
    (hafter : between { e with pc := pc } = true) (htaking : pc = .taking → e.requests ≠ [])
    (hended : pc = .ended → e.finishExecutorThread = true) : InOrder kind generate { e with pc := pc } where
  whole := by
    rw [unanswered_of_between hafter, ← unanswered_of_between hbefore]
    exact h.whole
  outcome := h.outcome
  completed answer hanswer := by
    refine Or.inl ((h.completed answer hanswer).resolve_right fun hpc => ?_)
    rw [between, hpc] at hbefore
    cases hbefore
  front _ request hrequest := by
    rcases hrequest with hpc | hpc <;> cases hpc <;> cases hafter
  nonempty _ hpc := by
    rcases hpc with hpc | hpc
    · exact htaking hpc
    · cases hpc
      cases hafter
  popping hpc := by
    cases hpc
    cases hafter
  ended := hended

theorem InOrder.work (h : InOrder kind generate e) (hnext : e.work kind generate = some next) : InOrder kind generate next := by
  obtain ⟨requests, finished, pc, disconnected, readySignal, signalComplete, scheduled⟩ := e
  unfold Executor.work at hnext
  cases pc with
  | looping =>
    cases hnext
    dsimp only
    split
    next hfinished => exact h.moves rfl rfl (fun hpc => by cases hpc) fun _ => hfinished
    next => exact h.moves rfl rfl (fun hpc => by cases hpc) (fun hpc => by cases hpc)
  | reporting =>
    cases hnext
    exact h.moves rfl rfl (fun hpc => by cases hpc) (fun hpc => by cases hpc)
  | asking =>
    cases hnext
    dsimp only
    split
    next hrequests =>
      refine h.moves rfl rfl (fun _ hnone => ?_) (fun hpc => by cases hpc)
      rw [hasRequests, hnone] at hrequests
      cases hrequests
    next => exact h.moves rfl rfl (fun hpc => by cases hpc) (fun hpc => by cases hpc)
  | taking =>
    dsimp only at hnext
    cases requests with
    | nil =>
      unfold takeRequest at hnext
      dsimp only at hnext
      split at hnext
      next =>
        cases hnext
        exact h.moves rfl rfl (fun hpc => by cases hpc) (fun hpc => by cases hpc)
      next => cases hnext
    | cons request later =>
      have hwhole : readySignal.map Prod.fst ++ request :: later = scheduled := h.whole
      have hnotCompleting (answer : ρ × Bool) (hanswer : answer ∈ readySignal) : answer.1 ∈ signalComplete :=
        (h.completed answer hanswer).resolve_right (fun hpc => by cases hpc)
      cases hnext
      refine ⟨?_, h.outcome, fun answer hanswer => Or.inl (hnotCompleting answer hanswer), ?_, ?_, (fun hpc => by cases hpc),
        (fun hpc => by cases hpc)⟩
      · rw [← hwhole]
        unfold unanswered
        dsimp only
        split <;> rfl
      · intro hkind request' hpc
        rw [hkind]
        rcases hpc with hpc | hpc <;> cases hpc
        exact ⟨later, rfl⟩
      · intro _ hpc
        rcases hpc with hpc | hpc <;> cases hpc
  | processing request =>
    cases hnext
    refine ⟨?_, ?_, ?_, ?_, ?_, (fun hpc => by cases hpc), (fun hpc => by cases hpc)⟩
    · have hwhole := h.whole
      unfold unanswered at hwhole ⊢
      dsimp only at hwhole ⊢
      rw [List.map_append, List.append_assoc, ← hwhole]
      congr 1
      cases hkind : kind.popsFirst with
      | true => rfl
      | false =>
        have hfront : ∃ later, requests = request :: later := h.front hkind request (Or.inl rfl)
        obtain ⟨later, rfl⟩ := hfront
        rfl
    · intro answer hanswer
      rcases List.mem_append.mp hanswer with hold | hnew
      · exact h.outcome answer hold
      · rw [List.mem_singleton.mp hnew]
        dsimp only
        unfold succeeds
        split
        next hskips =>
          rw [Bool.and_eq_true, List.contains_iff_mem] at hskips
          exact Or.inr ⟨rfl, hskips.2⟩
        next => exact Or.inl rfl
    · intro answer hanswer
      rcases List.mem_append.mp hanswer with hold | hnew
      · exact Or.inl ((h.completed answer hold).resolve_right (fun hpc => by cases hpc))
      · rw [List.mem_singleton.mp hnew]
        exact Or.inr rfl
    · intro hkind request' hpc
      rcases hpc with hpc | hpc <;> cases hpc
      exact h.front hkind request (Or.inl rfl)
    · intro _ hpc
      rcases hpc with hpc | hpc <;> cases hpc
  | completing request =>
    cases hnext
    refine ⟨?_, h.outcome, fun answer hanswer => Or.inl ?_, ?_, ?_, ?_, ?_⟩
    · have hwhole := h.whole
      unfold unanswered at hwhole ⊢
      dsimp only at hwhole ⊢
      rw [← hwhole]
      congr 1
      cases hkind : kind.popsFirst <;> rfl
    · rcases h.completed answer hanswer with hold | hnew
      · exact List.mem_append_left _ hold
      · cases hnew
        exact List.mem_append_right _ List.mem_cons_self
    · intro hkind request' hpc
      rw [hkind] at hpc
      rcases hpc with hpc | hpc <;> cases hpc
    · intro hkind _
      obtain ⟨later, hlater⟩ := h.front hkind request (Or.inr rfl)
      rw [hlater]
      exact List.cons_ne_nil _ _
    · intro hpc
      dsimp only at hpc
      split at hpc
      next => cases hpc
      next hkind => exact Bool.not_eq_true _ ▸ hkind
    · intro hpc
      dsimp only at hpc
      split at hpc <;> cases hpc
  | popping =>
    cases hnext
    refine ⟨h.whole, h.outcome, fun answer hanswer => Or.inl ?_, ?_, ?_, (fun hpc => by cases hpc), (fun hpc => by cases hpc)⟩
    · exact (h.completed answer hanswer).resolve_right (fun hpc => by cases hpc)
    · intro _ request hpc
      rcases hpc with hpc | hpc <;> cases hpc
    · intro _ hpc
      rcases hpc with hpc | hpc <;> cases hpc
  | waiting => cases hnext
  | ended => cases hnext

omit [DecidableEq ρ] in
theorem InOrder.push (h : InOrder kind generate e) (request : ρ) : InOrder kind generate (e.push request) := by
  refine ⟨?_, h.outcome, h.completed, fun hkind r hpc => ?_, fun _ _ => ?_, h.popping, h.ended⟩
  · have hunanswered : (e.push request).unanswered kind = e.unanswered kind ++ [request] := by
      have htail (hne : e.requests ≠ []) : (e.requests ++ [request]).tail = e.requests.tail ++ [request] := List.tail_append_of_ne_nil hne
      have hfront := h.front
      have hnonempty := h.nonempty
      have hpopping := h.popping
      unfold unanswered Executor.push
      dsimp only
      cases hpc : e.pc with
      | processing r =>
        dsimp only
        split <;> rfl
      | completing r =>
        dsimp only
        split
        next => rfl
        next hkind =>
          obtain ⟨later, hlater⟩ := hfront (Bool.not_eq_true _ ▸ hkind) r (Or.inr hpc)
          exact htail (by rw [hlater]; exact List.cons_ne_nil _ _)
      | popping => exact htail (hnonempty (hpopping hpc) (Or.inr hpc))
      | looping => rfl
      | reporting => rfl
      | asking => rfl
      | taking => rfl
      | waiting => rfl
      | ended => rfl
    rw [hunanswered, ← List.append_assoc]
    exact congrArg (· ++ [request]) h.whole
  · obtain ⟨later, hlater⟩ := h.front hkind r hpc
    exact ⟨later ++ [request], congrArg (· ++ [request]) hlater⟩
  · exact List.append_ne_nil_of_right_ne_nil _ (List.cons_ne_nil _ _)

omit [DecidableEq ρ] in
theorem InOrder.finish (h : InOrder kind generate e) : InOrder kind generate e.finish :=
  ⟨h.whole, h.outcome, h.completed, h.front, h.nonempty, h.popping, fun _ => rfl⟩

omit [DecidableEq ρ] in
theorem InOrder.signalDisconnection (h : InOrder kind generate e) (request : ρ) : InOrder kind generate (e.signalDisconnection request) :=
  ⟨h.whole, fun answer hanswer => (h.outcome answer hanswer).imp_right fun hgone => ⟨hgone.1, List.mem_cons_of_mem _ hgone.2⟩,
    h.completed, h.front, h.nonempty, h.popping, h.ended⟩

omit [DecidableEq ρ] in
theorem InOrder.resume (h : InOrder kind generate e) (hpc : e.pc = .waiting) : InOrder kind generate { e with pc := .looping } :=
  h.moves (by rw [between, hpc]) rfl (fun hpc => by cases hpc) (fun hpc => by cases hpc)

omit [DecidableEq ρ] in
/-- All changes that the threads make are of three kinds. -/
theorem makes_program {allowed : (Executor ρ → Executor ρ) → Prop} (hpush : ∀ request, allowed (push request)) (hfinish : allowed finish)
    (hgone : ∀ request, allowed (signalDisconnection request)) (present : Party ρ → Bool) (party : Party ρ) :
    (programs kind present party).Makes allowed := by
  unfold programs
  split
  next =>
    cases party with
    | client request =>
      show (addRequest kind request).Makes allowed
      unfold addRequest
      split
      next => exact ⟨trivial, hpush request, trivial⟩
      next => exact ⟨hpush request, trivial⟩
    | disconnection request => exact ⟨hgone request, trivial⟩
    | destructor => exact ⟨hfinish, trivial⟩
  next => trivial

variable (kind generate) in
theorem keeps_inOrder (present : Party ρ → Bool) :
    ConditionVariable.Keeps (thread kind generate) ConditionVariable.anyState (InOrder kind generate) (programs kind present) where
  work _ _ _ h hnext := h.work hnext
  resume _ _ hwaits _ h := h.resume (of_decide_eq_true hwaits)
  makes := makes_program (fun request _ => ⟨fun _ _ h => h.push request, rfl⟩) (fun _ => ⟨fun _ _ h => h.finish, rfl⟩)
    (fun request _ => ⟨fun _ _ h => h.signalDisconnection request, rfl⟩) present

variable (kind generate) in
theorem disciplined_programs (present : Party ρ → Bool) (party : Party ρ) :
    (programs kind present party).Disciplined (thread kind generate).ready false := by
  have hschedule (request : ρ) : (scheduleRequest request).Disciplined (thread kind generate).ready false :=
    ⟨rfl, Or.inr (Or.inl rfl), rfl, rfl⟩
  unfold programs
  split
  next =>
    cases party with
    | client request =>
      show (addRequest kind request).Disciplined _ false
      unfold addRequest
      split
      next => exact ⟨rfl, hschedule request⟩
      next => exact hschedule request
    | disconnection request => exact ⟨Or.inl fun _ => id, rfl⟩
    | destructor => exact ⟨Or.inr (Or.inr (Or.inl rfl)), rfl, rfl, rfl⟩
  next => rfl

/-- Only the others schedule requests, and end the executor. -/
theorem same_of_work (hnext : e.work kind generate = some next) :
    next.scheduled = e.scheduled ∧ next.finishExecutorThread = e.finishExecutorThread := by
  unfold Executor.work at hnext
  split at hnext
  next => cases hnext; exact ⟨rfl, rfl⟩
  next => cases hnext; exact ⟨rfl, rfl⟩
  next => cases hnext; exact ⟨rfl, rfl⟩
  next =>
    unfold takeRequest at hnext
    split at hnext
    next =>
      split at hnext
      next => cases hnext; exact ⟨rfl, rfl⟩
      next => cases hnext
    next => cases hnext; exact ⟨rfl, rfl⟩
  next => cases hnext; exact ⟨rfl, rfl⟩
  next => cases hnext; exact ⟨rfl, rfl⟩
  next => cases hnext; exact ⟨rfl, rfl⟩
  next => cases hnext
  next => cases hnext

omit [DecidableEq ρ] in
/-- The threads that are there make only their own changes. -/
theorem makes_present {allowed : (Executor ρ → Executor ρ) → Prop} {present : Party ρ → Bool} {party : Party ρ}
    (h : present party = true → (program kind party).Makes allowed) : (programs kind present party).Makes allowed := by
  unfold programs
  split
  next hpresent => exact h hpresent
  next => trivial

omit [DecidableEq ρ] in
theorem makes_addRequest {allowed : (Executor ρ → Executor ρ) → Prop} (request : ρ) (h : allowed (Executor.push request)) :
    (addRequest kind request).Makes allowed := by
  unfold addRequest
  split
  next => exact ⟨trivial, h, trivial⟩
  next => exact ⟨h, trivial⟩

section Runs

variable {present : Party ρ → Bool} {s : State (Executor ρ) (Party ρ)}
  (h : Runs.Reaches (ConditionVariable.step (thread kind generate)) Runs.anyStep (ConditionVariable.start {} (programs kind present)) s)
include h

theorem scheduled_nodup : s.shared.scheduled.Nodup := by
  rw [List.nodup_iff_count]
  intro request
  have hpush (r : ρ) (hne : r ≠ request) (e : Executor ρ) : (e.push r).scheduled.count request = e.scheduled.count request := by
    show (e.scheduled ++ [r]).count request = _
    rw [List.count_append, List.count_eq_zero_of_not_mem fun hmem => hne (List.mem_singleton.mp hmem).symm, Nat.add_zero]
  have hpushed (e : Executor ρ) : (e.push request).scheduled.count request ≤ e.scheduled.count request + 1 := by
    show (e.scheduled ++ [request]).count request ≤ _
    exact Nat.le_of_eq (by rw [List.count_append, List.count_singleton_self])
  refine ConditionVariable.counts_of_reaches (fun e : Executor ρ => e.scheduled.count request)
    (fun hnext => by rw [(same_of_work hnext).1]) (fun _ => rfl) (.client request) ?_ ?_ h
  · intro party hparty
    refine makes_present fun _ => ?_
    cases party with
    | client r => exact makes_addRequest r (hpush r fun heq => hparty (congrArg Party.client heq))
    | disconnection r => exact ⟨fun _ => rfl, trivial⟩
    | destructor => exact ⟨fun _ => rfl, trivial⟩
  · have hcounts : (scheduleRequest request).CountsOnce fun e : Executor ρ => e.scheduled.count request := Or.inr ⟨hpushed, trivial⟩
    unfold programs
    split
    next =>
      show (addRequest kind request).CountsOnce _
      unfold addRequest
      split
      next => exact ⟨trivial, hcounts⟩
      next => exact hcounts
    next => trivial

theorem mem_scheduled {request : ρ} (hpresent : present (.client request) = true) (hdone : s.threads (.client request) = .done) :
    request ∈ s.shared.scheduled ∨ s.shared.finishExecutorThread = true := by
  have hkeeps : ConditionVariable.Keeps (thread kind generate) ConditionVariable.anyState
      (fun e => request ∈ e.scheduled ∨ e.finishExecutorThread = true) (programs kind present) := by
    refine ⟨fun _ _ _ hgoal hnext => ?_, fun _ _ _ _ => id, ?_⟩
    · obtain ⟨hscheduled, hfinish⟩ := same_of_work hnext
      rw [hscheduled, hfinish]
      exact hgoal
    · exact makes_program (fun r _ => ⟨fun _ _ => Or.imp_left fun hmem => List.mem_append_left _ hmem, rfl⟩) (fun _ => ⟨fun _ _ _ => Or.inr rfl, rfl⟩)
        (fun _ _ => ⟨fun _ _ => id, rfl⟩) present
  have hschedules : (scheduleRequest request).Brings fun e => request ∈ e.scheduled ∨ e.finishExecutorThread = true :=
    Or.inl fun _ => Or.inl (List.mem_append_right _ List.mem_cons_self)
  have hbrings : (programs kind present (.client request)).Brings fun e => request ∈ e.scheduled ∨ e.finishExecutorThread = true := by
    rw [programs, if_pos hpresent]
    show (addRequest kind request).Brings _
    unfold addRequest
    split
    next => exact ⟨Or.inl fun _ => Or.inr, Or.inr hschedules⟩
    next => exact hschedules
  rcases ConditionVariable.brings_of_reaches hkeeps h (fun _ => trivial) hbrings with hgoal | hlater
  · exact hgoal
  · rw [hdone] at hlater
    exact absurd hlater id

theorem finished_of_destructor (hpresent : present .destructor = true) (hdone : s.threads .destructor = .done) :
    s.shared.finishExecutorThread = true := by
  have hkeeps : ConditionVariable.Keeps (thread kind generate) ConditionVariable.anyState (fun e => e.finishExecutorThread = true) (programs kind present) := by
    refine ⟨fun _ _ _ hgoal hnext => ?_, fun _ _ _ _ => id, ?_⟩
    · rw [(same_of_work hnext).2]
      exact hgoal
    · exact makes_program (fun _ _ => ⟨fun _ _ => id, rfl⟩) (fun _ => ⟨fun _ _ _ => rfl, rfl⟩) (fun _ _ => ⟨fun _ _ => id, rfl⟩) present
  have hbrings : (programs kind present .destructor).Brings fun e => e.finishExecutorThread = true := by
    rw [programs, if_pos hpresent]
    exact Or.inl fun _ => rfl
  rcases ConditionVariable.brings_of_reaches hkeeps h (fun _ => trivial) hbrings with hgoal | hlater
  · exact hgoal
  · rw [hdone] at hlater
    exact absurd hlater id

theorem unfinished_without_destructor (habsent : present .destructor = false) : s.shared.finishExecutorThread = false := by
  have hkeeps : ConditionVariable.Keeps (thread kind generate) ConditionVariable.anyState (fun e => e.finishExecutorThread = false) (programs kind present) := by
    refine ⟨fun _ _ _ hgoal hnext => ?_, fun _ _ _ _ => id, fun party => makes_present fun hpresent => ?_⟩
    · rw [(same_of_work hnext).2]
      exact hgoal
    · cases party with
      | client r => exact makes_addRequest r fun _ => ⟨fun _ _ => id, rfl⟩
      | disconnection r => exact ⟨fun _ => ⟨fun _ _ => id, rfl⟩, trivial⟩
      | destructor =>
        rw [habsent] at hpresent
        cases hpresent
  exact ConditionVariable.keeps_of_reaches hkeeps h (fun _ => trivial) rfl

theorem present_of_scheduled {request : ρ} (hmem : request ∈ s.shared.scheduled) : present (.client request) = true := by
  have hkeeps : ConditionVariable.Keeps (thread kind generate) ConditionVariable.anyState
      (fun e => ∀ r ∈ e.scheduled, present (.client r) = true) (programs kind present) := by
    refine ⟨fun _ _ _ hgoal hnext => ?_, fun _ _ _ _ => id, fun party => makes_present fun hpresent => ?_⟩
    · rw [(same_of_work hnext).1]
      exact hgoal
    · cases party with
      | client r =>
        refine makes_addRequest r fun e => ⟨fun _ _ hgoal r' hr' => ?_, rfl⟩
        rcases List.mem_append.mp hr' with hold | hnew
        · exact hgoal r' hold
        · rw [List.mem_singleton.mp hnew]
          exact hpresent
      | disconnection r => exact ⟨fun _ => ⟨fun _ _ => id, rfl⟩, trivial⟩
      | destructor => exact ⟨fun _ => ⟨fun _ _ => id, rfl⟩, trivial⟩
  exact ConditionVariable.keeps_of_reaches hkeeps h (fun _ => trivial) (fun _ hnone => absurd hnone List.not_mem_nil) request hmem

theorem inOrder_of_reaches : InOrder kind generate s.shared :=
  ConditionVariable.keeps_of_reaches (keeps_inOrder kind generate present) h (fun _ => trivial)
    ⟨rfl, fun _ hnone => absurd hnone List.not_mem_nil, fun _ hnone => absurd hnone List.not_mem_nil,
      (fun _ _ hpc => by rcases hpc with hpc | hpc <;> cases hpc), (fun _ hpc => by rcases hpc with hpc | hpc <;> cases hpc),
      (fun hpc => by cases hpc), (fun hpc => by cases hpc)⟩

theorem finished_or_idle (hquiet : ConditionVariable.Quiet (thread kind generate) s) :
    s.shared.pc = .ended ∨ s.shared.pc = .waiting ∧ s.shared.requests = [] ∧ s.shared.finishExecutorThread = false := by
  have hinOrder := inOrder_of_reaches h
  have hsound := ConditionVariable.reaches_sound (disciplined_programs kind generate present) h
  have hkept := ConditionVariable.kept_of_reaches (keeps_inOrder kind generate present) h
  rcases (hsound.quiet hquiet).2 with ⟨hphase, hready⟩ | ⟨-, hwaits, hwork⟩
  · have hwaiting := of_decide_eq_true (hkept.waits (by rw [hphase]; exact fun heq => by cases heq))
    have hnothing : (s.shared.hasRequests || s.shared.finishExecutorThread) = false := hready
    rw [Bool.or_eq_false_iff, hasRequests, Bool.not_eq_false', List.isEmpty_iff] at hnothing
    exact Or.inr ⟨hwaiting, hnothing⟩
  · left
    have hworking : s.shared.work kind generate = none := hwork
    unfold Executor.work at hworking
    split at hworking
    next => cases hworking
    next => cases hworking
    next => cases hworking
    next hpc =>
      -- what was seen in the queue is still there
      unfold takeRequest at hworking
      split at hworking
      next hempty =>
        split at hworking
        next => cases hworking
        next hkind => exact absurd hempty (hinOrder.nonempty (Bool.not_eq_true _ ▸ hkind) (Or.inl hpc))
      next => cases hworking
    next => cases hworking
    next => cases hworking
    next => cases hworking
    next hpc => exact absurd hpc (of_decide_eq_false hwaits)
    next hpc => exact hpc

/-- The requests are answered in the order in which they were scheduled, each once, and with its own outcome. Where nobody can take a
step any more, an executor that was told to stop has stopped, and any other one has answered every request. -/
theorem answers_in_order : s.shared.readySignal.map Prod.fst ++ s.shared.unanswered kind = s.shared.scheduled ∧
    s.shared.scheduled.Nodup ∧
    (∀ answer ∈ s.shared.readySignal, answer.2 = generate answer.1 ∨ answer.2 = false ∧ answer.1 ∈ s.shared.clientDisconnected) ∧
    (ConditionVariable.Quiet (thread kind generate) s →
      (present .destructor = true → s.shared.pc = .ended) ∧
      (present .destructor = false → s.shared.readySignal.map Prod.fst = s.shared.scheduled ∧
        ∀ request, (request ∈ s.shared.scheduled ↔ present (.client request) = true) ∧
          (request ∈ s.shared.scheduled → request ∈ s.shared.signalComplete))) := by
  have hinOrder := inOrder_of_reaches h
  refine ⟨hinOrder.whole, scheduled_nodup h, hinOrder.outcome, fun hquiet => ?_⟩
  have hsound := ConditionVariable.reaches_sound (disciplined_programs kind generate present) h
  have hdone := (hsound.quiet hquiet).1
  refine ⟨fun hpresent => ?_, fun habsent => ?_⟩
  · have hfinished := finished_of_destructor h hpresent (hdone _)
    rcases finished_or_idle h hquiet with hended | ⟨-, -, hrunning⟩
    · exact hended
    · rw [hfinished] at hrunning
      cases hrunning
  · have hrunning := unfinished_without_destructor h habsent
    rcases finished_or_idle h hquiet with hended | ⟨hwaiting, hempty, -⟩
    · rw [hinOrder.ended hended] at hrunning
      cases hrunning
    · have hall : s.shared.readySignal.map Prod.fst = s.shared.scheduled := by
        have hwhole := hinOrder.whole
        rw [unanswered_of_between (by rw [between, hwaiting]), hempty, List.append_nil] at hwhole
        exact hwhole
      refine ⟨hall, fun request => ⟨⟨present_of_scheduled h, fun hpresent => ?_⟩, fun hmem => ?_⟩⟩
      · refine (mem_scheduled h hpresent (hdone _)).resolve_right fun hfinished => ?_
        rw [hfinished] at hrunning
        cases hrunning
      · rw [← hall] at hmem
        obtain ⟨answer, hanswer, rfl⟩ := List.mem_map.mp hmem
        refine (hinOrder.completed answer hanswer).resolve_right fun hpc => ?_
        rw [hwaiting] at hpc
        cases hpc

end Runs

end InOrder

/-- One client, whose request is answered before the thread of the executor sleeps. -/
def oneRequest : List (ConditionVariable.Action (Party Nat)) :=
  List.replicate 5 (ConditionVariable.Action.thread (.client 7)) ++ List.replicate 13 ConditionVariable.Action.work

theorem answers_in_order_one : ∃ s : State (Executor Nat) (Party Nat),
    Runs.run (ConditionVariable.step (thread .language fun _ => true))
      (ConditionVariable.start {} (programs .language fun party => decide (party = .client 7))) oneRequest = some s ∧
    s.phase = .asleep ∧ s.shared.readySignal = [(7, true)] ∧
    s.shared.readySignal.map Prod.fst ++ s.shared.unanswered .language = s.shared.scheduled := by
  have hrun : ∃ s, Runs.run (ConditionVariable.step (thread .language fun _ => true))
      (ConditionVariable.start {} (programs .language fun party => decide (party = .client 7))) oneRequest = some s ∧
      s.phase = .asleep ∧ s.shared.readySignal = [(7, true)] := ⟨_, rfl, rfl, rfl⟩
  obtain ⟨s, hrun, hasleep, hanswered⟩ := hrun
  exact ⟨s, hrun, hasleep, hanswered, (answers_in_order (Runs.reaches_of_run hrun)).1⟩

end Executor

end ModelServer
