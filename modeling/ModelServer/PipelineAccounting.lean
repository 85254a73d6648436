import ModelServer.Pipeline

namespace ModelServer.Pipeline

variable {ε : Type}

/-- What the accounting reads of a state. -/
structure Books (ε : Type) where
  running : List NodeSessionKeyPair
  finishedNodeQueue : List NodeSessionKeyPair
  processed : List NodeSessionKeyPair
  executed : List NodeSessionKeyPair
  started : List NodeSessionKeyPair
  disarmed : List NodeSessionKeyPair
  firstErrorStatus : Option ε
  errors : List ε
  startedSessions : Finset String
  finishedSessions : Finset String

def State.books (s : State ε) : Books ε where
  running := s.running
  finishedNodeQueue := s.finishedNodeQueue
  processed := s.history.processed
  executed := s.history.executed
  started := s.history.started
  disarmed := s.history.disarmed
  firstErrorStatus := s.firstErrorStatus
  errors := s.history.errors
  startedSessions := s.startedSessions
  finishedSessions := s.finishedSessions

/-- Every inference, event and deferred session is a session that was executed, in one place at a time; `waiting` are
the sessions that are deferred and `retriable` those of them that may be tried again. -/
structure Balanced (b : Books ε) (waiting retriable : List NodeSessionKeyPair) : Prop where
  events_nodup : (b.running ++ b.finishedNodeQueue ++ b.processed).Nodup
  events_executed : ∀ pair ∈ b.running ++ b.finishedNodeQueue ++ b.processed, pair ∈ b.executed
  waiting_nodup : waiting.Nodup
  waiting_executed : ∀ pair ∈ waiting, pair ∈ b.executed
  waiting_started : ∀ pair ∈ waiting, pair ∉ b.started
  waiting_idle : b.firstErrorStatus = none → ∀ pair ∈ waiting, pair ∉ b.finishedNodeQueue ++ b.processed
  retriable_waiting : ∀ pair ∈ retriable, pair ∈ waiting
  retriable_idle : ∀ pair ∈ retriable, pair ∉ b.finishedNodeQueue ++ b.processed
  running_started : ∀ pair ∈ b.running, pair ∈ b.started
  started_nodup : b.started.Nodup
  started_executed : ∀ pair ∈ b.started, pair ∈ b.executed
  disarmed_executed : ∀ pair ∈ b.disarmed, pair ∈ b.executed
  disarmed_started : ∀ pair ∈ b.disarmed, pair ∉ b.started
  disarmed_nil : b.firstErrorStatus = none → b.disarmed = []
  startedSessions : b.startedSessions = (b.executed.map sessionName).toFinset
  finishedSessions : b.finishedSessions = ((b.processed ++ b.disarmed).map sessionName).toFinset
  errors : b.firstErrorStatus = b.errors.head?

section Books

variable {b : Books ε} {waiting waiting' retriable retriable' : List NodeSessionKeyPair} {pair : NodeSessionKeyPair}

theorem insert_sessionNames {pairs pairs' : List NodeSessionKeyPair} (h : (pair :: pairs).Perm pairs') :
    insert (sessionName pair) (pairs.map sessionName).toFinset = (pairs'.map sessionName).toFinset := by
  rw [← List.toFinset_eq_of_perm _ _ (h.map sessionName), List.map_cons, List.toFinset_cons]

theorem Balanced.fewer (h : Balanced b waiting retriable) (hsublist : waiting'.Sublist waiting)
    (hretriable : ∀ pair ∈ retriable', pair ∈ waiting' ∧ pair ∉ b.finishedNodeQueue ++ b.processed) :
    Balanced b waiting' retriable' :=
  { h with
    waiting_nodup := h.waiting_nodup.sublist hsublist
    waiting_executed := fun pair hm => h.waiting_executed pair (hsublist.subset hm)
    waiting_started := fun pair hm => h.waiting_started pair (hsublist.subset hm)
    waiting_idle := fun hnone pair hm => h.waiting_idle hnone pair (hsublist.subset hm)
    retriable_waiting := fun pair hm => (hretriable pair hm).1
    retriable_idle := fun pair hm => (hretriable pair hm).2 }

/-- Without an error all sessions that wait may be tried again. -/
theorem Balanced.all (h : Balanced b waiting retriable) (hnone : b.firstErrorStatus = none) :
    Balanced b waiting waiting :=
  h.fewer (List.Sublist.refl _) fun pair hm => ⟨hm, h.waiting_idle hnone pair hm⟩

theorem Balanced.halt (h : Balanced b waiting retriable) : Balanced b waiting [] :=
  h.fewer (List.Sublist.refl _) fun _ hm => absurd hm List.not_mem_nil

theorem Balanced.padded (h : Balanced b waiting retriable) : Balanced b (waiting ++ []) retriable := by
  rwa [List.append_nil]

theorem Balanced.unpadded (h : Balanced b (waiting ++ []) retriable) : Balanced b waiting retriable := by
  rwa [List.append_nil] at h

theorem Balanced.fail (h : Balanced b waiting retriable) (status : ε) :
    Balanced { b with
      firstErrorStatus := b.firstErrorStatus.or (some status)
      errors := b.errors ++ [status] } waiting retriable := by
  have hsome : b.firstErrorStatus.or (some status) ≠ none := by
    cases b.firstErrorStatus <;> simp
  refine { h with waiting_idle := fun hnone => absurd hnone hsome, disarmed_nil := fun hnone => absurd hnone hsome, errors := ?_ }
  show b.firstErrorStatus.or (some status) = (b.errors ++ [status]).head?
  rw [h.errors, List.head?_append]
  rfl

theorem Balanced.complete (h : Balanced b waiting retriable) (hrunning : pair ∈ b.running) :
    Balanced { b with
      running := b.running.erase pair
      finishedNodeQueue := b.finishedNodeQueue ++ [pair] } waiting retriable := by
  have hperm : (b.running.erase pair ++ (b.finishedNodeQueue ++ [pair]) ++ b.processed).Perm
      (b.running ++ b.finishedNodeQueue ++ b.processed) := by
    apply List.Perm.append_right
    rw [← List.append_assoc]
    refine (List.perm_append_singleton _ _).trans ?_
    rw [← List.cons_append]
    exact (List.perm_cons_erase hrunning).symm.append_right _
  have hwaiting : ∀ other ∈ waiting, other ≠ pair := by
    rintro other hm rfl
    exact h.waiting_started other hm (h.running_started other hrunning)
  have hidle : ∀ other ∈ waiting, other ∉ b.finishedNodeQueue ++ b.processed →
      other ∉ b.finishedNodeQueue ++ [pair] ++ b.processed := by
    intro other hm hnot
    have hne := hwaiting other hm
    simp only [List.mem_append, List.mem_singleton, not_or] at hnot ⊢
    exact ⟨⟨hnot.1, hne⟩, hnot.2⟩
  exact { h with
    events_nodup := hperm.nodup_iff.mpr h.events_nodup
    events_executed := fun other hm => h.events_executed other (hperm.mem_iff.mp hm)
    waiting_idle := fun hnone other hm => hidle other hm (h.waiting_idle hnone other hm)
    retriable_idle := fun other hm => hidle other (h.retriable_waiting other hm) (h.retriable_idle other hm)
    running_started := fun other hm => h.running_started other (List.mem_of_mem_erase hm) }

theorem Balanced.pull (h : Balanced b waiting retriable) {rest : List NodeSessionKeyPair}
    (hqueue : b.finishedNodeQueue = pair :: rest) :
    Balanced { b with
      finishedNodeQueue := rest
      processed := b.processed ++ [pair]
      finishedSessions := insert (sessionName pair) b.finishedSessions } waiting retriable := by
  have hperm : (rest ++ (b.processed ++ [pair])).Perm (b.finishedNodeQueue ++ b.processed) := by
    rw [hqueue, ← List.append_assoc, List.cons_append]
    exact List.perm_append_singleton _ _
  have hevents : (b.running ++ rest ++ (b.processed ++ [pair])).Perm
      (b.running ++ b.finishedNodeQueue ++ b.processed) := by
    rw [List.append_assoc, List.append_assoc]
    exact hperm.append_left _
  refine { h with
    events_nodup := hevents.nodup_iff.mpr h.events_nodup
    events_executed := fun other hm => h.events_executed other (hevents.mem_iff.mp hm)
    waiting_idle := fun hnone other hm hin => h.waiting_idle hnone other hm (hperm.mem_iff.mp hin)
    retriable_idle := fun other hm hin => h.retriable_idle other hm (hperm.mem_iff.mp hin)
    finishedSessions := ?_ }
  show insert (sessionName pair) b.finishedSessions = ((b.processed ++ [pair] ++ b.disarmed).map sessionName).toFinset
  have hmoved : (pair :: (b.processed ++ b.disarmed)).Perm (b.processed ++ [pair] ++ b.disarmed) := by
    rw [List.append_assoc]
    exact List.perm_middle.symm
  rw [h.finishedSessions, insert_sessionNames hmoved]

theorem Balanced.disarm (h : Balanced b waiting retriable) (hpair : pair ∈ waiting)
    (hsome : b.firstErrorStatus ≠ none) (hsublist : waiting'.Sublist waiting) :
    Balanced { b with
      finishedSessions := insert (sessionName pair) b.finishedSessions
      disarmed := b.disarmed ++ [pair] } waiting' [] := by
  have hfewer : Balanced b waiting' [] := h.fewer hsublist fun _ hm => absurd hm List.not_mem_nil
  refine { hfewer with
    disarmed_executed := ?_
    disarmed_started := ?_
    disarmed_nil := fun hnone => absurd hnone hsome
    finishedSessions := ?_ }
  · intro other hm
    rcases List.mem_append.mp hm with hm | hm
    · exact h.disarmed_executed other hm
    · rw [List.mem_singleton.mp hm]
      exact h.waiting_executed pair hpair
  · intro other hm
    rcases List.mem_append.mp hm with hm | hm
    · exact h.disarmed_started other hm
    · rw [List.mem_singleton.mp hm]
      exact h.waiting_started pair hpair
  · show insert (sessionName pair) b.finishedSessions =
      ((b.processed ++ (b.disarmed ++ [pair])).map sessionName).toFinset
    rw [h.finishedSessions, ← List.append_assoc]
    exact insert_sessionNames (List.perm_append_singleton _ _).symm

section Execute

/-- The books after a call of `Node::execute`. -/
inductive Executes (b : Books ε) (pair : NodeSessionKeyPair) : Outcome ε → Books ε → Prop
  | event : Executes b pair .ok { b with
      executed := b.executed ++ [pair]
      finishedNodeQueue := b.finishedNodeQueue ++ [pair]
      started := b.started ++ [pair] }
  | inference : Executes b pair .ok { b with
      executed := b.executed ++ [pair]
      running := b.running ++ [pair]
      started := b.started ++ [pair] }
  | notReady : Executes b pair .notReady { b with executed := b.executed ++ [pair] }
  | failed (status : ε) (used : Bool) : Executes b pair (.failed status used) { b with
      executed := b.executed ++ [pair]
      finishedNodeQueue := b.finishedNodeQueue ++ [pair]
      firstErrorStatus := b.firstErrorStatus.or (some status)
      errors := b.errors ++ [status] }

theorem State.execute_books {s t : State ε} {kind : NodeKind} {outcome : Outcome ε}
    (h : s.execute kind pair outcome = some t) : Executes s.books pair outcome t.books := by
  cases outcome with
  | ok =>
    cases kind <;> cases h
    · exact .event
    · exact .inference
    · exact .event
    · exact .event
  | notReady =>
    cases kind <;> cases h
    exact .notReady
  | failed status used =>
    cases kind <;> cases h
    · exact .failed status used
    · exact .failed status used

/-- What a call of `Node::execute` leaves as it is. -/
structure Keeps (s t : State ε) : Prop where
  location : t.location = s.location
  deferredNodeSessions : t.deferredNodeSessions = s.deferredNodeSessions
  disarmed : t.history.disarmed = s.history.disarmed
  processed : t.history.processed = s.history.processed
  fetched : t.history.fetched = s.history.fetched
  handedOver : t.history.handedOver = s.history.handedOver

theorem State.execute_keeps {s t : State ε} {kind : NodeKind} {outcome : Outcome ε}
    (h : s.execute kind pair outcome = some t) : Keeps s t := by
  cases outcome <;> cases kind <;> cases h <;> exact ⟨rfl, rfl, rfl, rfl, rfl, rfl⟩

/-- A session is executed that is neither running nor finished. -/
theorem Balanced.execute {b b' : Books ε} {outcome : Outcome ε}
    (h : Balanced b waiting retriable) (hevents : pair ∉ b.running ++ b.finishedNodeQueue ++ b.processed)
    (hstarted : pair ∉ b.started) (hdisarmed : b.disarmed = [])
    (hexecutes : Executes { b with startedSessions := insert (sessionName pair) b.startedSessions } pair outcome b')
    (hnodup : waiting'.Nodup) (hwaiting : ∀ other ∈ waiting', other ∈ waiting ∨ other = pair)
    (hok : outcome = .ok → pair ∉ waiting')
    (hretriable : ∀ other ∈ retriable', other ∈ retriable ∧ other ∈ waiting' ∧ other ≠ pair) :
    Balanced b' waiting' retriable' := by
  have hcalled : ∀ other, other ∈ b.executed → other ∈ b.executed ++ [pair] := fun other hm =>
    List.mem_append_left _ hm
  have hself : pair ∈ b.executed ++ [pair] := List.mem_append_right _ (List.mem_singleton.mpr rfl)
  have hexecuted : ∀ other ∈ waiting', other ∈ b.executed ++ [pair] := by
    intro other hm
    rcases hwaiting other hm with hm | rfl
    · exact hcalled other (h.waiting_executed other hm)
    · exact hself
  have hnames : insert (sessionName pair) b.startedSessions = ((b.executed ++ [pair]).map sessionName).toFinset := by
    rw [h.startedSessions]
    exact insert_sessionNames (List.perm_append_singleton _ _).symm
  have hkept : ∀ other ∈ waiting', other ≠ pair → other ∈ waiting := fun other hm hne =>
    (hwaiting other hm).resolve_right hne
  have hstart : (b.started ++ [pair]).Nodup := by
    rw [List.nodup_append]
    refine ⟨h.started_nodup, List.nodup_singleton _, ?_⟩
    rintro other hm pair' hm' rfl
    rw [List.mem_singleton.mp hm'] at hm
    exact hstarted hm
  have hstartExecuted : ∀ other ∈ b.started ++ [pair], other ∈ b.executed ++ [pair] := by
    intro other hm
    rcases List.mem_append.mp hm with hm | hm
    · exact hcalled other (h.started_executed other hm)
    · exact List.mem_append_right _ hm
  have hpush : (b.running ++ (b.finishedNodeQueue ++ [pair]) ++ b.processed).Perm
      (pair :: (b.running ++ b.finishedNodeQueue ++ b.processed)) := by
    rw [← List.append_assoc, List.append_assoc _ [pair]]
    exact List.perm_middle
  have hpushed : ∀ other ∈ b.running ++ (b.finishedNodeQueue ++ [pair]) ++ b.processed,
      other ∈ b.executed ++ [pair] := by
    intro other hm
    rcases List.mem_cons.mp (hpush.mem_iff.mp hm) with rfl | hm
    · exact hself
    · exact hcalled other (h.events_executed other hm)
  have hidle : ∀ other, other ≠ pair → other ∉ b.finishedNodeQueue ++ b.processed →
      other ∉ b.finishedNodeQueue ++ [pair] ++ b.processed := by
    intro other hne hnot
    simp only [List.mem_append, List.mem_singleton, not_or] at hnot ⊢
    exact ⟨⟨hnot.1, hne⟩, hnot.2⟩
  have hnotStarted : ∀ other ∈ waiting', other ∉ b.started := by
    intro other hm
    rcases hwaiting other hm with hm | rfl
    · exact h.waiting_started other hm
    · exact hstarted
  have hdisarm : ∀ (P : NodeSessionKeyPair → Prop), ∀ other ∈ b.disarmed, P other := by
    rw [hdisarmed]
    exact fun P other hm => absurd hm List.not_mem_nil
  have hfinished := h.finishedSessions
  cases hexecutes with
  | event =>
    have hne : ∀ other ∈ waiting', other ≠ pair := by
      rintro other hm rfl
      exact hok rfl hm
    refine ⟨hpush.nodup_iff.mpr (List.nodup_cons.mpr ⟨hevents, h.events_nodup⟩), hpushed, hnodup, hexecuted, ?_, ?_,
      fun other hm => (hretriable other hm).2.1, ?_, fun other hm => List.mem_append_left _ (h.running_started other hm),
      hstart, hstartExecuted, hdisarm _, hdisarm _, fun _ => hdisarmed, hnames, hfinished, h.errors⟩
    · intro other hm hin
      rcases List.mem_append.mp hin with hin | hin
      · exact hnotStarted other hm hin
      · exact hne other hm (List.mem_singleton.mp hin)
    · intro hnone other hm
      exact hidle other (hne other hm) (h.waiting_idle hnone other (hkept other hm (hne other hm)))
    · intro other hm
      obtain ⟨hold, _, hne⟩ := hretriable other hm
      exact hidle other hne (h.retriable_idle other hold)
  | inference =>
    have hne : ∀ other ∈ waiting', other ≠ pair := by
      rintro other hm rfl
      exact hok rfl hm
    have hrun : (b.running ++ [pair] ++ b.finishedNodeQueue ++ b.processed).Perm
        (pair :: (b.running ++ b.finishedNodeQueue ++ b.processed)) := by
      rw [List.append_assoc, List.append_assoc _ [pair], List.append_assoc]
      exact List.perm_middle
    refine ⟨hrun.nodup_iff.mpr (List.nodup_cons.mpr ⟨hevents, h.events_nodup⟩), ?_, hnodup, hexecuted, ?_, ?_,
      fun other hm => (hretriable other hm).2.1, fun other hm => h.retriable_idle other (hretriable other hm).1, ?_,
      hstart, hstartExecuted, hdisarm _, hdisarm _, fun _ => hdisarmed, hnames, hfinished, h.errors⟩
    · intro other hm
      rcases List.mem_cons.mp (hrun.mem_iff.mp hm) with rfl | hm
      · exact hself
      · exact hcalled other (h.events_executed other hm)
    · intro other hm hin
      rcases List.mem_append.mp hin with hin | hin
      · exact hnotStarted other hm hin
      · exact hne other hm (List.mem_singleton.mp hin)
    · intro hnone other hm
      exact h.waiting_idle hnone other (hkept other hm (hne other hm))
    · intro other hm
      rcases List.mem_append.mp hm with hm | hm
      · exact List.mem_append_left _ (h.running_started other hm)
      · exact List.mem_append_right _ hm
  | notReady =>
    refine ⟨h.events_nodup, fun other hm => hcalled other (h.events_executed other hm), hnodup, hexecuted, hnotStarted,
      ?_, fun other hm => (hretriable other hm).2.1, fun other hm => h.retriable_idle other (hretriable other hm).1,
      h.running_started, h.started_nodup, fun other hm => hcalled other (h.started_executed other hm), hdisarm _,
      hdisarm _, fun _ => hdisarmed, hnames, hfinished, h.errors⟩
    intro hnone other hm
    rcases hwaiting other hm with hm | rfl
    · exact h.waiting_idle hnone other hm
    · intro hin
      apply hevents
      rw [List.append_assoc]
      exact List.mem_append_right _ hin
  | failed status used =>
    have hsome : b.firstErrorStatus.or (some status) ≠ none := by
      cases b.firstErrorStatus <;> simp
    refine ⟨hpush.nodup_iff.mpr (List.nodup_cons.mpr ⟨hevents, h.events_nodup⟩), hpushed, hnodup, hexecuted, hnotStarted,
      fun hnone => absurd hnone hsome, fun other hm => (hretriable other hm).2.1, ?_, h.running_started, h.started_nodup,
      fun other hm => hcalled other (h.started_executed other hm), hdisarm _, hdisarm _,
      fun hnone => absurd hnone hsome, hnames, hfinished, (h.fail status).errors⟩
    intro other hm
    obtain ⟨hold, _, hne⟩ := hretriable other hm
    exact hidle other hne (h.retriable_idle other hold)

end Execute

end Books

section Locations

/-- The sessions that were deferred since the last event. -/
def Location.tmpDeferred : Location ε → List NodeSessionKeyPair
  | .scheduling _ _ tmpDeferredNodeSessions => tmpDeferredNodeSessions
  | .retrying _ tmpDeferredNodeSessions => tmpDeferredNodeSessions
  | .triggering _ tmpDeferredNodeSessions => tmpDeferredNodeSessions
  | _ => []

/-- The deferred sessions that may be tried again before the next event. -/
def Location.retriable (deferred : List NodeSessionKeyPair) : Location ε → List NodeSessionKeyPair
  | .feeding _ _ _ => deferred
  | .scheduling _ _ _ => deferred
  | .retrying it _ => deferred.drop it
  | .triggering it _ => deferred.drop it
  | .retryingAll it => deferred.drop it
  | _ => []

/-- Sessions may be executed before the next event. -/
def Location.Executes : Location ε → Prop
  | .feeding _ _ _ | .scheduling _ _ _ | .retrying _ _ | .triggering _ _ | .retryingAll _ => True
  | _ => False

/-- The accounting at a place in the loop. -/
structure Accounts (s : State ε) : Prop where
  balanced : Balanced s.books (s.deferredNodeSessions ++ s.location.tmpDeferred)
    (s.location.retriable s.deferredNodeSessions)
  executes : s.location.Executes → s.history.disarmed = []
  fetching : ∀ finished, s.location = .fetching finished →
    s.firstErrorStatus = none ∧ finished ∈ s.history.processed
  disarming : ∀ it, s.location = .disarming it → s.firstErrorStatus ≠ none
  left : ∀ status, s.location = .left status →
    status = s.firstErrorStatus ∧ s.finishedSessions.card = s.startedSessions.card

variable {s t : State ε} {waiting retriable : List NodeSessionKeyPair}

theorem Accounts.balanced_at (h : Accounts s) {location : Location ε} (hlocation : s.location = location) :
    Balanced s.books (s.deferredNodeSessions ++ location.tmpDeferred) (location.retriable s.deferredNodeSessions) :=
  hlocation ▸ h.balanced

theorem Balanced.breakIfAllFinished (h : Balanced s.books s.deferredNodeSessions []) :
    Accounts s.breakIfAllFinished := by
  unfold State.breakIfAllFinished
  split
  next hcard =>
    refine ⟨h.padded, fun hexecutes => hexecutes.elim, by rintro _ ⟨⟩, by rintro _ ⟨⟩, ?_⟩
    rintro status hleft
    cases hleft
    exact ⟨rfl, hcard⟩
  next => exact ⟨h.padded, fun hexecutes => hexecutes.elim, by rintro _ ⟨⟩, by rintro _ ⟨⟩, by rintro _ ⟨⟩⟩

theorem Accounts.complete (h : Accounts s) {pair : NodeSessionKeyPair} (hcomplete : s.complete pair = some t) :
    Accounts t := by
  unfold State.complete at hcomplete
  split at hcomplete
  next hrunning =>
    cases hcomplete
    exact ⟨h.balanced.complete hrunning, h.executes, h.fetching, h.disarming, h.left⟩
  next => cases hcomplete

theorem Accounts.tryPull (h : Accounts s) (hlocation : s.location = .pulling) : Accounts s.tryPull := by
  have hbalanced : Balanced s.books s.deferredNodeSessions [] := (h.balanced_at hlocation).unpadded
  unfold State.tryPull
  split
  next finished rest hqueue =>
    have hpulled := hbalanced.pull hqueue
    simp only
    split
    next => exact Balanced.breakIfAllFinished hpulled
    next hnone =>
      refine ⟨hpulled.padded, fun hexecutes => hexecutes.elim, ?_, by rintro _ ⟨⟩, by rintro _ ⟨⟩⟩
      rintro _ ⟨⟩
      exact ⟨hnone, List.mem_append_right _ (List.mem_singleton.mpr rfl)⟩
  next =>
    split
    next status hstatus =>
      refine ⟨hbalanced.padded, fun hexecutes => hexecutes.elim, by rintro _ ⟨⟩, ?_, by rintro _ ⟨⟩⟩
      rintro _ ⟨⟩ hnone
      rw [hstatus] at hnone
      cases hnone
    next hnone =>
      exact ⟨(hbalanced.all hnone).padded, fun _ => hbalanced.disarmed_nil hnone, by rintro _ ⟨⟩, by rintro _ ⟨⟩,
        by rintro _ ⟨⟩⟩

variable {definition : PipelineDefinition} {finished : NodeSessionKeyPair}

theorem Accounts.fetchResults (h : Accounts s) (hlocation : s.location = .fetching finished)
    {outcome : Except ε (List NodeSessionMetadata)} (hfetch : s.fetchResults definition finished outcome = some t) :
    Accounts t := by
  have hbalanced : Balanced s.books s.deferredNodeSessions [] := (h.balanced_at hlocation).unpadded
  obtain ⟨hnone, _⟩ := h.fetching finished hlocation
  cases outcome with
  | error status =>
    cases hfetch
    exact Balanced.breakIfAllFinished (hbalanced.fail status)
  | ok results =>
    simp only [State.fetchResults] at hfetch
    split at hfetch
    next =>
      split at hfetch
      next => cases hfetch
      next =>
        split at hfetch
        next =>
          cases hfetch
          exact ⟨(hbalanced.all hnone).padded, fun _ => hbalanced.disarmed_nil hnone, by rintro _ ⟨⟩, by rintro _ ⟨⟩,
            by rintro _ ⟨⟩⟩
        next => cases hfetch
    next => cases hfetch

theorem Accounts.setInputs (h : Accounts s) {nextNodes : List String} {nextNode : String}
    {metadata : NodeSessionMetadata} {handOvers : List (String × NodeSessionMetadata)}
    (hlocation : s.location = .feeding finished nextNodes ((nextNode, metadata) :: handOvers)) {outcome : HandOver ε}
    (hset : s.setInputs definition finished nextNodes nextNode metadata handOvers outcome = some t) : Accounts t := by
  have hbalanced : Balanced s.books s.deferredNodeSessions s.deferredNodeSessions := (h.balanced_at hlocation).unpadded
  have hdisarmed : s.history.disarmed = [] := h.executes (by rw [hlocation]; trivial)
  cases outcome with
  | ok =>
    simp only [State.setInputs] at hset
    split at hset
    next =>
      cases hset
      exact ⟨hbalanced.padded, fun _ => hdisarmed, by rintro _ ⟨⟩, by rintro _ ⟨⟩, by rintro _ ⟨⟩⟩
    next => cases hset
  | failed status counted =>
    have hfailed := (hbalanced.fail status).padded
    simp only [State.setInputs] at hset
    split at hset
    next =>
      cases hset
      cases counted
      · exact ⟨hfailed, fun _ => hdisarmed, by rintro _ ⟨⟩, by rintro _ ⟨⟩, by rintro _ ⟨⟩⟩
      · exact ⟨hfailed, fun _ => hdisarmed, by rintro _ ⟨⟩, by rintro _ ⟨⟩, by rintro _ ⟨⟩⟩
    next =>
      cases hset
      exact ⟨hfailed, fun _ => hdisarmed, by rintro _ ⟨⟩, by rintro _ ⟨⟩, by rintro _ ⟨⟩⟩

theorem Accounts.schedule (h : Accounts s) {nextNodes : List String} {pair : NodeSessionKeyPair}
    {readySessions tmpDeferred : List NodeSessionKeyPair}
    (hlocation : s.location = .scheduling nextNodes (pair :: readySessions) tmpDeferred)
    (hnew : pair ∉ s.history.executed) {outcome : Outcome ε}
    (hschedule : s.schedule definition nextNodes pair readySessions tmpDeferred outcome = some t) : Accounts t := by
  have hbalanced : Balanced s.books (s.deferredNodeSessions ++ tmpDeferred) s.deferredNodeSessions := h.balanced_at hlocation
  have hdisarmed : s.history.disarmed = [] := h.executes (by rw [hlocation]; trivial)
  have hnotWaiting : pair ∉ s.deferredNodeSessions ++ tmpDeferred := fun hm => hnew (hbalanced.waiting_executed pair hm)
  simp only [State.schedule] at hschedule
  split at hschedule
  next => cases hschedule
  next next hexecute =>
    have hbooks := State.execute_books hexecute
    cases hschedule
    have hkeeps := State.execute_keeps hexecute
    obtain ⟨tmp, htmp⟩ : ∃ tmp, tmp = outcome.defer tmpDeferred pair := ⟨_, rfl⟩
    rw [← htmp]
    have hsubset : ∀ other ∈ s.deferredNodeSessions ++ tmp, other ∈ s.deferredNodeSessions ++ tmpDeferred ∨
        other = pair := by
      intro other hm
      rw [htmp] at hm
      unfold Outcome.defer at hm
      split at hm
      next =>
        rw [← List.append_assoc] at hm
        exact (List.mem_append.mp hm).imp_right List.mem_singleton.mp
      next => exact .inl hm
    have hnodup : (s.deferredNodeSessions ++ tmp).Nodup := by
      rw [htmp]
      unfold Outcome.defer
      split
      next =>
        rw [← List.append_assoc]
        exact (List.perm_append_singleton _ _).nodup_iff.mpr (List.nodup_cons.mpr ⟨hnotWaiting, hbalanced.waiting_nodup⟩)
      next => exact hbalanced.waiting_nodup
    have hok : outcome = .ok → pair ∉ s.deferredNodeSessions ++ tmp := by
      rintro rfl
      rw [htmp]
      exact hnotWaiting
    have hretriable : ∀ other ∈ s.deferredNodeSessions,
        other ∈ s.deferredNodeSessions ∧ other ∈ s.deferredNodeSessions ++ tmp ∧ other ≠ pair := by
      intro other hm
      refine ⟨hm, List.mem_append_left _ hm, ?_⟩
      rintro rfl
      exact hnotWaiting (List.mem_append_left _ hm)
    have hrest := hbalanced.execute (fun hm => hnew (hbalanced.events_executed pair hm))
      (fun hm => hnew (hbalanced.started_executed pair hm)) hdisarmed hbooks hnodup hsubset hok hretriable
    refine ⟨?_, fun _ => hkeeps.disarmed.trans hdisarmed, by rintro _ ⟨⟩, by rintro _ ⟨⟩, by rintro _ ⟨⟩⟩
    show Balanced next.books (next.deferredNodeSessions ++ tmp) next.deferredNodeSessions
    rw [hkeeps.deferredNodeSessions]
    exact hrest

theorem insert_sessionName (h : Balanced s.books waiting retriable) {pair : NodeSessionKeyPair}
    (hm : pair ∈ s.history.executed) : insert (sessionName pair) s.startedSessions = s.startedSessions := by
  apply Finset.insert_eq_of_mem
  have heq : s.startedSessions = (s.history.executed.map sessionName).toFinset := h.startedSessions
  rw [heq, List.mem_toFinset]
  exact List.mem_map.mpr ⟨pair, hm, rfl⟩

/-- A deferred session is tried again at a place from which the sessions from `it` on may be. -/
theorem Balanced.retry {tmpDeferred : List NodeSessionKeyPair} {it : Nat}
    (h : Balanced s.books (s.deferredNodeSessions ++ tmpDeferred) (s.deferredNodeSessions.drop it))
    (hdisarmed : s.history.disarmed = []) {next : Nat → Location ε}
    (hexecutes : ∀ i, (next i).Executes) (htmp : ∀ i, (next i).tmpDeferred = tmpDeferred)
    (hretriable : ∀ i deferred, (next i).retriable deferred = deferred.drop i) {outcome : Outcome ε}
    (hretry : s.retry definition next it outcome = some t) : Accounts t := by
  unfold State.retry at hretry
  split at hretry
  next => cases hretry
  next pair hpair =>
    obtain ⟨hit, hget⟩ := List.getElem?_eq_some_iff.mp hpair
    have hdrop : s.deferredNodeSessions.drop it = pair :: s.deferredNodeSessions.drop (it + 1) := by
      rw [← hget]
      exact List.drop_eq_getElem_cons hit
    have hdeferred : pair ∈ s.deferredNodeSessions := List.mem_of_getElem? hpair
    have hidle := h.retriable_idle pair (by rw [hdrop]; exact List.mem_cons_self)
    have hstarted := h.waiting_started pair (List.mem_append_left _ hdeferred)
    have hexecuted := h.waiting_executed pair (List.mem_append_left _ hdeferred)
    have hevents : pair ∉ s.running ++ s.finishedNodeQueue ++ s.history.processed := by
      rw [List.append_assoc, List.mem_append, not_or]
      exact ⟨fun hm => hstarted (h.running_started pair hm), hidle⟩
    have hbehind : ∀ other ∈ s.deferredNodeSessions.drop (it + 1), other ≠ pair := by
      have hnodup := ((List.nodup_append.mp h.waiting_nodup).1).sublist (List.drop_sublist it _)
      rw [hdrop, List.nodup_cons] at hnodup
      rintro other hm rfl
      exact hnodup.1 hm
    have hrest : ∀ other ∈ s.deferredNodeSessions.drop (it + 1), other ∈ s.deferredNodeSessions.drop it := by
      intro other hm
      rw [hdrop]
      exact List.mem_cons_of_mem _ hm
    split at hretry
    next => cases hretry
    next u hexecute =>
      have hbooks := State.execute_books hexecute
      have hkeeps := State.execute_keeps hexecute
      have hannounced : Executes { s.books with
          startedSessions := insert (sessionName pair) s.books.startedSessions } pair outcome u.books := by
        show Executes { s.books with startedSessions := insert (sessionName pair) s.startedSessions } pair outcome _
        rw [insert_sessionName h hexecuted]
        exact hbooks
      have haccounts : ∀ (deferred : List NodeSessionKeyPair) (i : Nat),
          Balanced u.books (deferred ++ tmpDeferred) (deferred.drop i) →
          Accounts { u with
            deferredNodeSessions := deferred
            location := next i } := by
        intro deferred i hbalanced
        have hplace := hexecutes i
        refine ⟨?_, fun _ => hkeeps.disarmed.trans hdisarmed, ?_, ?_, ?_⟩
        · show Balanced u.books (deferred ++ (next i).tmpDeferred) ((next i).retriable deferred)
          rw [htmp i, hretriable i deferred]
          exact hbalanced
        · intro finished heq
          rw [show next i = .fetching finished from heq] at hplace
          exact hplace.elim
        · intro it heq
          rw [show next i = .disarming it from heq] at hplace
          exact hplace.elim
        · intro status heq
          rw [show next i = .left status from heq] at hplace
          exact hplace.elim
      have herase : s.deferredNodeSessions.eraseIdx it =
          s.deferredNodeSessions.take it ++ s.deferredNodeSessions.drop (it + 1) :=
        List.eraseIdx_eq_take_drop_succ _ _
      have hsublist : (s.deferredNodeSessions.eraseIdx it ++ tmpDeferred).Sublist
          (s.deferredNodeSessions ++ tmpDeferred) := (List.eraseIdx_sublist _ _).append_right _
      have hgone : pair ∉ s.deferredNodeSessions.eraseIdx it ++ tmpDeferred := by
        have hperm : (s.deferredNodeSessions ++ tmpDeferred).Perm
            (pair :: (s.deferredNodeSessions.eraseIdx it ++ tmpDeferred)) := by
          rw [← List.cons_append]
          apply List.Perm.append_right
          nth_rewrite 1 [← List.take_append_drop it s.deferredNodeSessions]
          rw [herase, hdrop]
          exact List.perm_middle
        exact (List.nodup_cons.mp (hperm.nodup_iff.mp h.waiting_nodup)).1
      have hdropErase : (s.deferredNodeSessions.eraseIdx it).drop it = s.deferredNodeSessions.drop (it + 1) := by
        rw [herase]
        apply List.drop_left'
        rw [List.length_take]
        omega
      split at hretry
      next =>
        cases hretry
        rw [hkeeps.deferredNodeSessions]
        apply haccounts
        rw [hdropErase]
        apply h.execute hevents hstarted hdisarmed hannounced (h.waiting_nodup.sublist hsublist)
          (fun other hm => .inl (hsublist.subset hm)) (fun _ => hgone)
        intro other hm
        refine ⟨hrest other hm, List.mem_append_left _ ?_, hbehind other hm⟩
        rw [herase]
        exact List.mem_append_right _ hm
      next hother =>
        cases hretry
        have hkept : ∀ other ∈ s.deferredNodeSessions ++ tmpDeferred,
            other ∈ s.deferredNodeSessions ++ tmpDeferred ∨ other = pair := fun other hm => .inl hm
        have hretriable : ∀ other ∈ s.deferredNodeSessions.drop (it + 1), other ∈ s.deferredNodeSessions.drop it ∧
            other ∈ s.deferredNodeSessions ++ tmpDeferred ∧ other ≠ pair := fun other hm =>
          ⟨hrest other hm, List.mem_append_left _ (List.mem_of_mem_drop hm), hbehind other hm⟩
        have hbalanced := h.execute hevents hstarted hdisarmed hannounced h.waiting_nodup hkept
          (fun heq => absurd heq hother) hretriable
        have hfields := haccounts s.deferredNodeSessions (it + 1) hbalanced
        rw [← hkeeps.deferredNodeSessions] at hfields
        exact hfields

theorem Accounts.tryDisarm (h : Accounts s) {it : Nat} (hlocation : s.location = .disarming it) {succeeded : Bool}
    (hdisarm : s.tryDisarm it succeeded = some t) : Accounts t := by
  have hbalanced : Balanced s.books s.deferredNodeSessions [] := (h.balanced_at hlocation).unpadded
  have hsome := h.disarming it hlocation
  unfold State.tryDisarm at hdisarm
  split at hdisarm
  next => cases hdisarm
  next pair hpair =>
    split at hdisarm
    next =>
      cases hdisarm
      have hrest := hbalanced.disarm (List.mem_of_getElem? hpair) hsome (List.eraseIdx_sublist _ it)
      refine ⟨hrest.padded, fun hexecutes => hexecutes.elim, by rintro _ ⟨⟩, ?_, by rintro _ ⟨⟩⟩
      rintro _ ⟨⟩
      exact hsome
    next =>
      cases hdisarm
      refine ⟨hbalanced.padded, fun hexecutes => hexecutes.elim, by rintro _ ⟨⟩, ?_, by rintro _ ⟨⟩⟩
      rintro _ ⟨⟩
      exact hsome

theorem Accounts.advance (h : Accounts s) (hadvance : s.advance = some t) : Accounts t := by
  have hbalanced := h.balanced
  have hexecutes := h.executes
  unfold State.advance at hadvance
  split at hadvance
  next hlocation =>
    rw [hlocation] at hbalanced hexecutes
    cases hadvance
    exact ⟨hbalanced, fun _ => hexecutes trivial, by rintro _ ⟨⟩, by rintro _ ⟨⟩, by rintro _ ⟨⟩⟩
  next hlocation =>
    rw [hlocation] at hbalanced hexecutes
    cases hadvance
    exact ⟨hbalanced, fun _ => hexecutes trivial, by rintro _ ⟨⟩, by rintro _ ⟨⟩, by rintro _ ⟨⟩⟩
  next it tmpDeferred hlocation =>
    rw [hlocation] at hbalanced hexecutes
    split at hadvance
    next =>
      cases hadvance
      exact Balanced.breakIfAllFinished hbalanced.halt
    next =>
      cases hadvance
      exact ⟨hbalanced, fun _ => hexecutes trivial, by rintro _ ⟨⟩, by rintro _ ⟨⟩, by rintro _ ⟨⟩⟩
  next hlocation =>
    rw [hlocation] at hbalanced
    split at hadvance
    next =>
      cases hadvance
      split
      next => exact ⟨hbalanced, fun hexecutes => hexecutes.elim, by rintro _ ⟨⟩, by rintro _ ⟨⟩, by rintro _ ⟨⟩⟩
      next =>
        exact Balanced.breakIfAllFinished hbalanced.unpadded
    next => cases hadvance
  next hlocation =>
    rw [hlocation] at hbalanced
    split at hadvance
    next =>
      cases hadvance
      exact ⟨hbalanced.halt, fun hexecutes => hexecutes.elim, by rintro _ ⟨⟩, by rintro _ ⟨⟩, by rintro _ ⟨⟩⟩
    next => cases hadvance
  next => cases hadvance

/-- A step keeps the accounting, if a session that is ready has not been executed before. -/
theorem Accounts.step (h : Accounts s) {action : Action ε} (hstep : step definition s action = some t)
    (hnew : ∀ nextNodes pair readySessions tmpDeferred, s.location = .scheduling nextNodes (pair :: readySessions) tmpDeferred →
      pair ∉ s.history.executed) : Accounts t := by
  cases action with
  | complete pair => exact h.complete hstep
  | tryPull =>
    simp only [Pipeline.step] at hstep
    split at hstep
    next hlocation =>
      cases hstep
      exact h.tryPull hlocation
    next => cases hstep
  | fetchResults outcome =>
    simp only [Pipeline.step] at hstep
    split at hstep
    next hlocation => exact h.fetchResults hlocation hstep
    next => cases hstep
  | setInputs outcome =>
    simp only [Pipeline.step] at hstep
    split at hstep
    next hlocation => exact h.setInputs hlocation hstep
    next => cases hstep
  | getReadySessions readySessions =>
    simp only [Pipeline.step] at hstep
    split at hstep
    next hlocation =>
      split at hstep
      next =>
        cases hstep
        have hbalanced := h.balanced
        have hexecutes := h.executes
        rw [hlocation] at hbalanced hexecutes
        exact ⟨hbalanced, fun _ => hexecutes trivial, by rintro _ ⟨⟩, by rintro _ ⟨⟩, by rintro _ ⟨⟩⟩
      next => cases hstep
    next => cases hstep
  | execute outcome =>
    have hbalanced := h.balanced
    have hexecutes := h.executes
    simp only [Pipeline.step] at hstep
    split at hstep
    next hlocation => exact h.schedule hlocation (hnew _ _ _ _ hlocation) hstep
    next it tmpDeferred hlocation =>
      rw [hlocation] at hbalanced hexecutes
      have hplaces : ∀ i, (Location.retrying i tmpDeferred : Location ε).Executes := fun _ => trivial
      exact hbalanced.retry (hexecutes trivial) hplaces (fun _ => rfl) (fun _ _ => rfl) hstep
    next it hlocation =>
      rw [hlocation] at hbalanced hexecutes
      have hplaces : ∀ i, (Location.retryingAll i : Location ε).Executes := fun _ => trivial
      exact hbalanced.retry (hexecutes trivial) hplaces (fun _ => rfl) (fun _ _ => rfl) hstep
    next => cases hstep
  | tryDisarm succeeded =>
    simp only [Pipeline.step] at hstep
    split at hstep
    next hlocation => exact h.tryDisarm hlocation hstep
    next => cases hstep
  | advance => exact h.advance hstep

theorem Accounts.initial (definition : PipelineDefinition) (entry : String) :
    Accounts (Pipeline.initial definition entry : State ε) := by
  refine ⟨⟨?_, ?_, ?_, ?_, ?_, ?_, ?_, ?_, ?_, ?_, ?_, ?_, ?_, ?_, ?_, ?_, ?_⟩, ?_, ?_, ?_, ?_⟩ <;>
    simp [Pipeline.initial, State.books, Location.tmpDeferred, Location.retriable, Location.Executes]

end Locations

end ModelServer.Pipeline
