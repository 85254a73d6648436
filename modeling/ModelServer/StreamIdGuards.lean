import ModelServer.StreamQueue
import Mathlib.Logic.Function.Basic

/-! The guards of the stream ids. A call gets an idle id and the infer request of that id when its guard is
constructed, works on the infer request while it has the guard, and returns the id when the guard is destroyed. -/

namespace ModelServer.StreamIdGuard

/-- How far a call has got. -/
inductive Stage (σ : Type*)
  | before
  /-- In the constructor of the guard, up to `get` of the future. -/
  | waiting
  | inside (id : Int) (call : σ)
  | after (call : σ)
deriving DecidableEq

/-- The queue with its infer requests, and the calls. -/
structure State (κ : Type) (ρ σ : Type*) where
  queue : StreamQueue.State κ
  inferRequests : Int → ρ
  stage : κ → Stage σ

inductive Action (κ : Type) (ω β : Type*)
  /-- `getIdleStream`, called by the constructor, up to its test of the front slot. -/
  | construct (client : κ)
  | push
  | take
  | setValue (promise : StreamQueue.IdleStreamPromise κ) (value : Int)
  | get (promise : StreamQueue.IdleStreamPromise κ) (value : Int)
  /-- The call goes on by one step. -/
  | work (client : κ) (event : ω)
  /-- The infer request goes on by itself. -/
  | alone (id : Int) (event : β)
  /-- `returnStream`, called by the destructor, up to the new back index. -/
  | destroy (client : κ)
  | writeSlot

variable {κ : Type} {ρ σ ω β : Type*}

/-- What the calls do while they have their guards, and what the infer requests do by themselves. -/
structure Body (κ : Type) (ρ σ ω β : Type*) where
  begins : σ
  next : κ → σ → ρ → ω → Option (σ × ρ)
  alone : ρ → β → Option ρ
  ends : σ → Bool

def initial (streamsLength : Nat) (inferRequests : Int → ρ) : State κ ρ σ where
  queue := StreamQueue.initial streamsLength
  inferRequests := inferRequests
  stage := fun _ => .before

namespace State

variable [DecidableEq κ] (s : State κ ρ σ)

def queued (queue : Option (StreamQueue.State κ)) : Option (State κ ρ σ) := queue.map fun queue => { s with queue := queue }

def construct (client : κ) : Option (State κ ρ σ) :=
  match s.stage client with
  | .before => (s.queue.getIdleStream client).map fun queue =>
    { s with queue := queue, stage := Function.update s.stage client .waiting }
  | _ => none

def get (body : Body κ ρ σ ω β) (promise : StreamQueue.IdleStreamPromise κ) (value : Int) : Option (State κ ρ σ) :=
  match s.stage promise.client with
  | .waiting => (s.queue.get promise value).map fun queue =>
    { s with queue := queue, stage := Function.update s.stage promise.client (.inside value body.begins) }
  | _ => none

def work (body : Body κ ρ σ ω β) (client : κ) (event : ω) : Option (State κ ρ σ) :=
  match s.stage client with
  | .inside id call => (body.next client call (s.inferRequests id) event).map fun after =>
    { s with
      inferRequests := Function.update s.inferRequests id after.2
      stage := Function.update s.stage client (.inside id after.1) }
  | _ => none

def alone (body : Body κ ρ σ ω β) (id : Int) (event : β) : Option (State κ ρ σ) :=
  (body.alone (s.inferRequests id) event).map fun r => { s with inferRequests := Function.update s.inferRequests id r }

def destroy (body : Body κ ρ σ ω β) (client : κ) : Option (State κ ρ σ) :=
  match s.stage client with
  | .inside id call =>
    if body.ends call then
      (s.queue.returnStream client id).map fun queue =>
        { s with queue := queue, stage := Function.update s.stage client (.after call) }
    else none
  | _ => none

end State

variable [DecidableEq κ]

/-- One step of one call. -/
def step (body : Body κ ρ σ ω β) (s : State κ ρ σ) : Action κ ω β → Option (State κ ρ σ)
  | .construct client => s.construct client
  | .push => s.queued s.queue.push
  | .take => s.queued s.queue.take
  | .setValue promise value => s.queued (s.queue.setValue promise value)
  | .get promise value => s.get body promise value
  | .work client event => s.work body client event
  | .alone id event => s.alone body id event
  | .destroy client => s.destroy body client
  | .writeSlot => s.queued s.queue.writeSlot

/-- What holds of an infer request that no call has, of a call and the infer request it has, and of a call that has
given its infer request back, if every call sees to it. -/
structure Keeps (body : Body κ ρ σ ω β) (idle : ρ → Prop) (holds : κ → σ → ρ → Prop) (ended : κ → σ → Prop) : Prop where
  construct : ∀ {client r}, idle r → holds client body.begins r
  work : ∀ {client call r event call' r'}, holds client call r →
    body.next client call r event = some (call', r') → holds client call' r'
  alone : ∀ {r event r'}, body.alone r event = some r' →
    (idle r → idle r') ∧ ∀ {client call}, holds client call r → holds client call r'
  destroy : ∀ {client call r}, holds client call r → body.ends call = true → idle r ∧ ended client call

omit [DecidableEq κ] in
/-- The ids and the infer requests are with the calls that have a guard, and with no others. -/
structure Sound (n : Nat) (idle : ρ → Prop) (holds : κ → σ → ρ → Prop) (ended : κ → σ → Prop) (s : State κ ρ σ) : Prop where
  queue : ∃ xs, StreamQueue.Sound n s.queue xs
  front : ∀ client, s.queue.frontMut ≠ some (.tries client)
  obtained : ∀ client id, (client, id) ∈ s.queue.obtained ↔ ∃ call, s.stage client = .inside id call
  idle : ∀ id, (∀ client call, s.stage client ≠ .inside id call) → idle (s.inferRequests id)
  holds : ∀ client id call, s.stage client = .inside id call → holds client call (s.inferRequests id)
  ended : ∀ client call, s.stage client = .after call → ended client call

namespace Sound

variable {n : Nat} {idle : ρ → Prop} {holds : κ → σ → ρ → Prop} {ended : κ → σ → Prop} {s t : State κ ρ σ}
  {body : Body κ ρ σ ω β} {client : κ}

omit [DecidableEq κ] in
theorem initial (hn : 0 < n) {inferRequests : Int → ρ} (hidle : ∀ id, idle (inferRequests id)) :
    Sound n idle holds ended (StreamIdGuard.initial n inferRequests : State κ ρ σ) where
  queue := ⟨_, StreamQueue.initial_sound hn⟩
  front := fun _ hfront => by cases hfront
  obtained := fun _ _ => ⟨fun hmem => absurd hmem List.not_mem_nil, fun ⟨_, hinside⟩ => by cases hinside⟩
  idle := fun id _ => hidle id
  holds := fun _ _ _ hinside => by cases hinside
  ended := fun _ _ hafter => by cases hafter

variable (h : Sound n idle holds ended s)
include h

omit [DecidableEq κ] in
theorem holder_unique {client' : κ} {id : Int} {call₁ call₂ : σ} (hclient : s.stage client = .inside id call₁)
    (hclient' : s.stage client' = .inside id call₂) : client = client' := by
  obtain ⟨xs, hqueue⟩ := h.queue
  have howned {c : κ} {call : σ} (hc : s.stage c = .inside id call) : (c, id) ∈ s.queue.owned :=
    List.mem_append_left _ ((h.obtained c id).mpr ⟨call, hc⟩)
  exact hqueue.owner_unique (howned hclient) (howned hclient')

omit [DecidableEq κ] in
theorem obtained_nodup : s.queue.obtained.Nodup := by
  obtain ⟨xs, hqueue⟩ := h.queue
  have hids : (s.queue.owned.map Prod.snd).Nodup :=
    (List.nodup_append.mp (hqueue.places.nodup_iff.mpr (StreamQueue.ids_nodup n))).2.1
  exact (List.nodup_append.mp (List.Nodup.of_map _ hids)).1

theorem ended_update {stage : Stage σ} (hnew : ∀ call, stage = .after call → ended client call) (c : κ) (call : σ)
    (hc : Function.update s.stage client stage c = .after call) : ended c call := by
  by_cases hclient : c = client
  · subst hclient
    exact hnew call ((Function.update_self c stage s.stage).symm.trans hc)
  · exact h.ended c call ((Function.update_of_ne hclient _ _).symm.trans hc)

/-- A step of the queue alone. -/
theorem queued {action : StreamQueue.Action κ} {queue : StreamQueue.State κ}
    (hqueue : StreamQueue.step s.queue action = some queue) (hfront : ∀ client, queue.frontMut ≠ some (.tries client))
    (hobtained : queue.obtained = s.queue.obtained) : Sound n idle holds ended { s with queue := queue } where
  queue := by
    obtain ⟨xs, hsound⟩ := h.queue
    exact hsound.step hqueue
  front := hfront
  obtained := by
    rw [hobtained]
    exact h.obtained
  idle := h.idle
  holds := h.holds
  ended := h.ended

theorem push {queue : StreamQueue.State κ} (hqueue : s.queue.push = some queue) :
    Sound n idle holds ended { s with queue := queue } := by
  have hstep : StreamQueue.step s.queue .push = some queue := hqueue
  unfold StreamQueue.State.push at hqueue
  split at hqueue
  next =>
    cases Option.some.inj hqueue
    exact h.queued hstep (fun _ hfront => by cases hfront) rfl
  next => cases hqueue

theorem take {queue : StreamQueue.State κ} (hqueue : s.queue.take = some queue) :
    Sound n idle holds ended { s with queue := queue } := by
  have hstep : StreamQueue.step s.queue .take = some queue := hqueue
  unfold StreamQueue.State.take at hqueue
  split at hqueue
  next =>
    cases Option.some.inj hqueue
    exact h.queued hstep (fun _ hfront => by cases hfront) rfl
  next client hfront => exact absurd hfront (h.front client)
  next => cases hqueue

theorem setValue {promise : StreamQueue.IdleStreamPromise κ} {value : Int} {queue : StreamQueue.State κ}
    (hqueue : s.queue.setValue promise value = some queue) : Sound n idle holds ended { s with queue := queue } := by
  have hstep : StreamQueue.step s.queue (.setValue promise value) = some queue := hqueue
  unfold StreamQueue.State.setValue at hqueue
  split at hqueue
  next =>
    cases Option.some.inj hqueue
    exact h.queued hstep h.front rfl
  next => cases hqueue

theorem writeSlot {queue : StreamQueue.State κ} (hqueue : s.queue.writeSlot = some queue) :
    Sound n idle holds ended { s with queue := queue } := by
  have hstep : StreamQueue.step s.queue .writeSlot = some queue := hqueue
  unfold StreamQueue.State.writeSlot at hqueue
  split at hqueue
  next =>
    cases Option.some.inj hqueue
    exact h.queued hstep h.front rfl
  next => cases hqueue

theorem construct (ht : s.construct client = some t) : Sound n idle holds ended t := by
  unfold State.construct at ht
  split at ht
  next hbefore =>
    obtain ⟨queue, hqueue, rfl⟩ := Option.map_eq_some_iff.mp ht
    have hstep : StreamQueue.step s.queue (.getIdleStream client) = some queue := hqueue
    have hkept : queue.obtained = s.queue.obtained ∧ ∀ c, queue.frontMut ≠ some (.tries c) := by
      unfold StreamQueue.State.getIdleStream at hqueue
      split at hqueue
      next =>
        cases Option.some.inj hqueue
        refine ⟨rfl, fun c hfront => ?_⟩
        have hholder := Option.some.inj hfront
        split at hholder <;> cases hholder
      next => cases hqueue
    have hqueued := h.queued hstep hkept.2 hkept.1
    have hinside {c : κ} {id : Int} {call : σ} :
        Function.update s.stage client .waiting c = .inside id call ↔ s.stage c = .inside id call := by
      by_cases hc : c = client
      · subst hc
        rw [Function.update_self, hbefore]
        exact iff_of_false (fun heq => by cases heq) (fun heq => by cases heq)
      · rw [Function.update_of_ne hc]
    refine ⟨hqueued.queue, hqueued.front, ?_, ?_, ?_, ?_⟩
    · intro c id
      simp only [hinside]
      exact hqueued.obtained c id
    · exact fun id hfree => h.idle id fun c call hc => hfree c call (hinside.mpr hc)
    · exact fun c id call hc => h.holds c id call (hinside.mp hc)
    · exact h.ended_update fun _ heq => by cases heq
  next => cases ht

theorem get (hkeeps : Keeps body idle holds ended) {promise : StreamQueue.IdleStreamPromise κ} {value : Int}
    (ht : s.get body promise value = some t) : Sound n idle holds ended t := by
  unfold State.get at ht
  split at ht
  next hwaiting =>
    obtain ⟨queue, hqueue, rfl⟩ := Option.map_eq_some_iff.mp ht
    obtain ⟨xs, hsound⟩ := h.queue
    have hnext := hsound.get hqueue
    have hkept : queue.obtained = s.queue.obtained ++ [(promise.client, value)] ∧ queue.frontMut = s.queue.frontMut := by
      unfold StreamQueue.State.get at hqueue
      split at hqueue
      next => cases Option.some.inj hqueue; exact ⟨rfl, rfl⟩
      next => cases hqueue
    have hother {c : κ} (hc : c ≠ promise.client) :
        Function.update s.stage promise.client (.inside value body.begins) c = s.stage c := Function.update_of_ne hc _ _
    have hself : Function.update s.stage promise.client (.inside value body.begins) promise.client =
        .inside value body.begins := Function.update_self _ _ _
    -- nobody else has the infer request that comes with the id
    have hfree : ∀ c call, s.stage c ≠ .inside value call := by
      intro c call hc
      have hclient : c ≠ promise.client := fun heq => by
        rw [heq, hwaiting] at hc
        cases hc
      have howned {d : κ} (hd : (d, value) ∈ queue.obtained) : (d, value) ∈ queue.owned := List.mem_append_left _ hd
      have hold : (c, value) ∈ queue.obtained :=
        hkept.1 ▸ List.mem_append_left _ ((h.obtained c value).mpr ⟨call, hc⟩)
      have hnew : (promise.client, value) ∈ queue.obtained := hkept.1 ▸ List.mem_append_right _ List.mem_cons_self
      exact hclient (hnext.owner_unique (howned hold) (howned hnew))
    refine ⟨⟨xs, hnext⟩, fun c => hkept.2 ▸ h.front c, ?_, ?_, ?_, ?_⟩
    · intro c id
      show (c, id) ∈ queue.obtained ↔ ∃ call, Function.update s.stage promise.client _ c = .inside id call
      rw [hkept.1, List.mem_append, List.mem_singleton]
      by_cases hc : c = promise.client
      · subst hc
        rw [hself]
        constructor
        · intro hmem
          obtain hmem | heq := hmem
          · obtain ⟨call, hcall⟩ := (h.obtained promise.client id).mp hmem
            rw [hwaiting] at hcall
            cases hcall
          · exact ⟨body.begins, by rw [(Prod.mk.inj heq).2]⟩
        · intro ⟨call, hcall⟩
          exact Or.inr (by rw [(Stage.inside.inj hcall).1])
      · rw [hother hc]
        constructor
        · intro hmem
          obtain hmem | heq := hmem
          · exact (h.obtained c id).mp hmem
          · exact absurd (Prod.mk.inj heq).1 hc
        · exact fun hcall => Or.inl ((h.obtained c id).mpr hcall)
    · intro id hnone
      refine h.idle id fun c call hcall => ?_
      by_cases hc : c = promise.client
      · rw [hc, hwaiting] at hcall
        cases hcall
      · exact hnone c call ((hother hc).trans hcall)
    · intro c id call hcall
      by_cases hc : c = promise.client
      · subst hc
        obtain ⟨hid, hbegins⟩ := Stage.inside.inj (hself.symm.trans hcall)
        subst hid hbegins
        exact hkeeps.construct (h.idle value hfree)
      · exact h.holds c id call ((hother hc).symm.trans hcall)
    · exact h.ended_update fun _ heq => by cases heq
  next => cases ht

theorem work (hkeeps : Keeps body idle holds ended) {event : ω} (ht : s.work body client event = some t) :
    Sound n idle holds ended t := by
  unfold State.work at ht
  split at ht
  next id call hinside =>
    obtain ⟨⟨call', r⟩, hnext, rfl⟩ := Option.map_eq_some_iff.mp ht
    have hother {c : κ} (hc : c ≠ client) : Function.update s.stage client (.inside id call') c = s.stage c :=
      Function.update_of_ne hc _ _
    have hself : Function.update s.stage client (.inside id call') client = .inside id call' := Function.update_self _ _ _
    refine ⟨h.queue, h.front, ?_, ?_, ?_, ?_⟩
    · intro c j
      refine (h.obtained c j).trans ?_
      show _ ↔ ∃ call, Function.update s.stage client _ c = .inside j call
      by_cases hc : c = client
      · subst hc
        rw [hself, hinside]
        exact ⟨fun ⟨_, heq⟩ => ⟨call', by rw [(Stage.inside.inj heq).1]⟩, fun ⟨_, heq⟩ => ⟨call, by rw [(Stage.inside.inj heq).1]⟩⟩
      · rw [hother hc]
    · intro j hnone
      have hj : j ≠ id := fun heq => hnone client call' (heq ▸ hself)
      show idle (Function.update s.inferRequests id r j)
      rw [Function.update_of_ne hj]
      refine h.idle j fun c d hd => ?_
      by_cases hc : c = client
      · subst hc
        exact hj (Stage.inside.inj (hinside.symm.trans hd)).1.symm
      · exact hnone c d ((hother hc).trans hd)
    · intro c j d hd
      show holds c d (Function.update s.inferRequests id r j)
      by_cases hc : c = client
      · subst hc
        obtain ⟨hj, hcall⟩ := Stage.inside.inj (hself.symm.trans hd)
        subst hj hcall
        rw [Function.update_self]
        exact hkeeps.work (h.holds c id call hinside) hnext
      · have hstage := (hother hc).symm.trans hd
        have hj : j ≠ id := fun heq => hc (h.holder_unique (heq ▸ hstage) hinside)
        rw [Function.update_of_ne hj]
        exact h.holds c j d hstage
    · exact h.ended_update fun _ heq => by cases heq
  next => cases ht

omit [DecidableEq κ] in
theorem alone (hkeeps : Keeps body idle holds ended) {id : Int} {event : β} (ht : s.alone body id event = some t) :
    Sound n idle holds ended t := by
  obtain ⟨r, hr, rfl⟩ := Option.map_eq_some_iff.mp ht
  obtain ⟨hidle, hholds⟩ := hkeeps.alone hr
  refine ⟨h.queue, h.front, h.obtained, fun j hnone => ?_, fun client j call hinside => ?_, h.ended⟩
  · show idle (Function.update s.inferRequests id r j)
    by_cases hj : j = id
    · subst hj
      rw [Function.update_self]
      exact hidle (h.idle j hnone)
    · rw [Function.update_of_ne hj]
      exact h.idle j hnone
  · show holds client call (Function.update s.inferRequests id r j)
    by_cases hj : j = id
    · subst hj
      rw [Function.update_self]
      exact hholds (h.holds client j call hinside)
    · rw [Function.update_of_ne hj]
      exact h.holds client j call hinside

theorem destroy (hkeeps : Keeps body idle holds ended) (ht : s.destroy body client = some t) :
    Sound n idle holds ended t := by
  unfold State.destroy at ht
  split at ht
  next id call hinside =>
    split at ht
    next hends =>
      obtain ⟨queue, hqueue, rfl⟩ := Option.map_eq_some_iff.mp ht
      obtain ⟨xs, hsound⟩ := h.queue
      have hkept : queue.obtained = s.queue.obtained.erase (client, id) ∧ queue.frontMut = s.queue.frontMut := by
        unfold StreamQueue.State.returnStream at hqueue
        split at hqueue
        next =>
          split at hqueue
          next => cases Option.some.inj hqueue; exact ⟨rfl, rfl⟩
          next => cases Option.some.inj hqueue; exact ⟨rfl, rfl⟩
        next => cases hqueue
      have hother {c : κ} (hc : c ≠ client) : Function.update s.stage client (.after call) c = s.stage c :=
        Function.update_of_ne hc _ _
      have hself : Function.update s.stage client (.after call) client = .after call := Function.update_self _ _ _
      obtain ⟨hidle, hended⟩ := hkeeps.destroy (h.holds client id call hinside) hends
      refine ⟨⟨xs, hsound.returnStream hqueue⟩, fun c => hkept.2 ▸ h.front c, ?_, ?_, ?_, ?_⟩
      · intro c j
        show (c, j) ∈ queue.obtained ↔ ∃ d, Function.update s.stage client _ c = .inside j d
        rw [hkept.1, h.obtained_nodup.mem_erase_iff, h.obtained c j]
        by_cases hc : c = client
        · subst hc
          rw [hself, hinside]
          constructor
          · intro ⟨hne, d, hd⟩
            exact absurd (by rw [(Stage.inside.inj hd).1]) hne
          · exact fun ⟨_, hd⟩ => by cases hd
        · rw [hother hc]
          exact ⟨fun hmem => hmem.2, fun hmem => ⟨fun heq => hc (Prod.mk.inj heq).1, hmem⟩⟩
      · intro j hnone
        by_cases hj : j = id
        · exact hj ▸ hidle
        · refine h.idle j fun c d hd => ?_
          by_cases hc : c = client
          · subst hc
            exact hj (Stage.inside.inj (hinside.symm.trans hd)).1.symm
          · exact hnone c d ((hother hc).trans hd)
      · intro c j d hd
        by_cases hc : c = client
        · subst hc
          cases hself.symm.trans hd
        · exact h.holds c j d ((hother hc).symm.trans hd)
      · exact h.ended_update fun _ heq => Stage.after.inj heq ▸ hended
    next => cases ht
  next => cases ht

/-- A step of any of the calls. -/
theorem step (hkeeps : Keeps body idle holds ended) {action : Action κ ω β} (ht : step body s action = some t) :
    Sound n idle holds ended t := by
  cases action with
  | construct client => exact h.construct ht
  | push =>
    obtain ⟨queue, hqueue, rfl⟩ := Option.map_eq_some_iff.mp ht
    exact h.push hqueue
  | take =>
    obtain ⟨queue, hqueue, rfl⟩ := Option.map_eq_some_iff.mp ht
    exact h.take hqueue
  | setValue promise value =>
    obtain ⟨queue, hqueue, rfl⟩ := Option.map_eq_some_iff.mp ht
    exact h.setValue hqueue
  | get promise value => exact h.get hkeeps ht
  | work client event => exact h.work hkeeps ht
  | alone id event => exact h.alone hkeeps ht
  | destroy client => exact h.destroy hkeeps ht
  | writeSlot =>
    obtain ⟨queue, hqueue, rfl⟩ := Option.map_eq_some_iff.mp ht
    exact h.writeSlot hqueue

end Sound

/-- Whatever the order of the steps, what every call sees to holds of all of them. -/
theorem reaches_sound {body : Body κ ρ σ ω β} {n : Nat} {idle : ρ → Prop} {holds : κ → σ → ρ → Prop} {ended : κ → σ → Prop}
    {inferRequests : Int → ρ} {s : State κ ρ σ} (hn : 0 < n) (hkeeps : Keeps body idle holds ended)
    (hidle : ∀ id, idle (inferRequests id)) (h : Runs.Reaches (step body) Runs.anyStep (initial n inferRequests) s) :
    Sound n idle holds ended s :=
  h.keeps (.initial hn hidle) fun hs _ ht => hs.step hkeeps ht

end ModelServer.StreamIdGuard
