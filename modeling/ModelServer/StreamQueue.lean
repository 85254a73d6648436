import ModelServer.RingBuffer
import ModelServer.Runs

namespace ModelServer.StreamQueue

/-- The promise of one call of `getIdleStream`; the client holds its future. -/
structure IdleStreamPromise (κ : Type) where
  ticket : Nat
  client : κ
deriving DecidableEq

/-- What a call that holds `front_mut` goes on to do, after its test of the front slot. -/
inductive FrontHolder (κ : Type)
  /-- The slot is consumed, and the promise has to be queued. -/
  | waits (promise : IdleStreamPromise κ)
  | takes (promise : IdleStreamPromise κ)
  | tries (client : κ)
deriving DecidableEq

/-- A call of `returnStream` that found no promise and holds `queue_mutex`. -/
structure Return (κ : Type) where
  client : κ
  oldBack : Nat
  streamID : Int
deriving DecidableEq

/-- The queue and the calls under way, between two lock-protected steps. -/
structure State (κ : Type) where
  streams : List Int
  frontIdx : Nat
  backIdx : Nat
  promises : List (IdleStreamPromise κ)
  frontMut : Option (FrontHolder κ)
  queueMutex : Option (Return κ)
  /-- The promises with their values, before `set_value`. -/
  fulfilling : List (IdleStreamPromise κ × Int)
  /-- The promises whose value the client has not read yet. -/
  fulfilled : List (IdleStreamPromise κ × Int)
  /-- The ids a client obtained and did not return. -/
  obtained : List (κ × Int)
  tickets : Nat
  /-- All promises pushed to the queue, in order. -/
  queued : List (IdleStreamPromise κ)
  /-- All promises popped from the queue, in order. -/
  popped : List (IdleStreamPromise κ)
  /-- All promises whose value was set, in order. -/
  valuesSet : List (IdleStreamPromise κ)
deriving DecidableEq

variable {κ : Type}

/-- The queue its constructor makes. -/
def initial (streamsLength : Nat) : State κ where
  streams := (List.range streamsLength).map Int.ofNat
  frontIdx := 0
  backIdx := 0
  promises := []
  frontMut := none
  queueMutex := none
  fulfilling := []
  fulfilled := []
  obtained := []
  tickets := 0
  queued := []
  popped := []
  valuesSet := []

namespace State

variable (s : State κ)

def front : Int := s.streams.getD s.frontIdx (-1)

/-- `getIdleStream` up to its test of the front slot. -/
def getIdleStream (client : κ) : Option (State κ) :=
  if s.frontMut.isNone then
    let promise := ⟨s.tickets, client⟩
    some { s with
      tickets := s.tickets + 1
      frontMut := some (if s.front < 0 then .waits promise else .takes promise) }
  else none

/-- The rest of `getIdleStream` where it waits: `queue_mutex` is taken and the promise pushed. -/
def push : Option (State κ) :=
  match s.frontMut, s.queueMutex with
  | some (.waits promise), none =>
    some { s with
      promises := s.promises ++ [promise]
      queued := s.queued ++ [promise]
      frontMut := none }
  | _, _ => none

/-- `tryToGetIdleStream` up to its test of the front slot. -/
def tryToGetIdleStream (client : κ) : Option (State κ) :=
  if s.frontMut.isNone then
    if s.front < 0 then some s else some { s with frontMut := some (.tries client) }
  else none

/-- The front slot is consumed, and `front_mut` released. -/
def consumeFront : State κ :=
  { s with
    streams := s.streams.set s.frontIdx (-1)
    frontIdx := (s.frontIdx + 1) % s.streams.length
    frontMut := none }

/-- The rest of `getIdleStream` and of `tryToGetIdleStream` where there is an idle stream. -/
def take : Option (State κ) :=
  match s.frontMut with
  | some (.takes promise) => some { s.consumeFront with fulfilling := s.fulfilling ++ [(promise, s.front)] }
  | some (.tries client) => some { s.consumeFront with obtained := s.obtained ++ [(client, s.front)] }
  | _ => none

/-- `idleStreamPromise.set_value` and `promise.set_value`, which run without a lock. -/
def setValue [DecidableEq κ] (promise : IdleStreamPromise κ) (value : Int) : Option (State κ) :=
  if (promise, value) ∈ s.fulfilling then
    some { s with
      fulfilling := s.fulfilling.erase (promise, value)
      fulfilled := s.fulfilled ++ [(promise, value)]
      valuesSet := s.valuesSet ++ [promise] }
  else none

/-- The client reads the value from its future. -/
def get [DecidableEq κ] (promise : IdleStreamPromise κ) (value : Int) : Option (State κ) :=
  if (promise, value) ∈ s.fulfilled then
    some { s with
      fulfilled := s.fulfilled.erase (promise, value)
      obtained := s.obtained ++ [(promise.client, value)] }
  else none

/-- `returnStream` up to the new back index, called by a client that obtained the id. -/
def returnStream [DecidableEq κ] (client : κ) (streamID : Int) : Option (State κ) :=
  if (client, streamID) ∈ s.obtained ∧ s.queueMutex.isNone then
    let obtained := s.obtained.erase (client, streamID)
    match s.promises with
    | promise :: promises =>
      some { s with
        obtained
        promises
        popped := s.popped ++ [promise]
        fulfilling := s.fulfilling ++ [(promise, streamID)] }
    | [] =>
      some { s with
        obtained
        backIdx := (s.backIdx + 1) % s.streams.length
        queueMutex := some ⟨client, s.backIdx, streamID⟩ }
  else none

/-- The rest of `returnStream` where no promise was queued: the slot is written. -/
def writeSlot : Option (State κ) :=
  match s.queueMutex with
  | some call => some { s with streams := s.streams.set call.oldBack call.streamID, queueMutex := none }
  | none => none

end State

inductive Action (κ : Type)
  | getIdleStream (client : κ)
  | push
  | tryToGetIdleStream (client : κ)
  | take
  | setValue (promise : IdleStreamPromise κ) (value : Int)
  | get (promise : IdleStreamPromise κ) (value : Int)
  | returnStream (client : κ) (streamID : Int)
  | writeSlot
deriving DecidableEq

/-- One lock-protected step of one of the calls. -/
def step [DecidableEq κ] (s : State κ) : Action κ → Option (State κ)
  | .getIdleStream client => s.getIdleStream client
  | .push => s.push
  | .tryToGetIdleStream client => s.tryToGetIdleStream client
  | .take => s.take
  | .setValue promise value => s.setValue promise value
  | .get promise value => s.get promise value
  | .returnStream client streamID => s.returnStream client streamID
  | .writeSlot => s.writeSlot

namespace State

variable (s : State κ)

/-- The ids in the idle slots of the ring. -/
def idle : List Int := s.streams.filter (0 ≤ ·)

/-- The ids in promises fulfilled or about to be. -/
def promised : List Int := (s.fulfilling ++ s.fulfilled).map Prod.snd

/-- The ids the clients have, also those they are about to give back. -/
def owned : List (κ × Int) := s.obtained ++ (s.queueMutex.toList.map fun call => (call.client, call.streamID))

end State

/-- The ids of a queue with this many streams. -/
def ids (streamsLength : Nat) : List Int := (List.range streamsLength).map Int.ofNat

/-- The ring holds the ids `xs`, and every id has one place. -/
structure Sound (n : Nat) (s : State κ) (xs : List Int) : Prop where
  length : s.streams.length = n
  frontIdx : s.frontIdx < n
  backIdx : s.backIdx = (s.frontIdx + (xs.length + s.queueMutex.toList.length)) % n
  holds : RingBuffer.Holds (-1) s.streams s.frontIdx xs
  nonneg : ∀ id ∈ xs, 0 ≤ id
  oldBack : ∀ call, s.queueMutex = some call → call.oldBack = (s.frontIdx + xs.length) % n
  consumes : ∀ holder, s.frontMut = some holder → (∀ promise, holder ≠ .waits promise) → xs ≠ []
  places : (xs ++ s.promised ++ s.owned.map Prod.snd).Perm (ids n)
  queued : s.queued = s.popped ++ s.promises

theorem initial_sound {n : Nat} (hn : 0 < n) : Sound n (initial n : State κ) (ids n) where
  length := by simp [initial]
  frontIdx := hn
  backIdx := by simp [initial, ids]
  holds := ⟨0, by simp [initial, ids]⟩
  nonneg := by simp [ids]
  oldBack := by simp [initial]
  consumes := by simp [initial]
  places := by simp [initial, State.promised, State.owned]
  queued := rfl

namespace Sound

variable {n : Nat} {s t : State κ} {xs : List Int} (h : Sound n s xs)
include h

theorem front_eq : s.front = xs.headD (-1) :=
  h.holds.front_eq (h.length ▸ h.frontIdx)

theorem front_neg : s.front < 0 ↔ xs = [] := by
  rw [h.front_eq]
  cases xs with
  | nil => simp
  | cons id xs =>
    have hid := h.nonneg id List.mem_cons_self
    simp only [List.headD_cons, reduceCtorEq, iff_false]
    omega

theorem length_le : xs.length + s.queueMutex.toList.length ≤ n := by
  have hlength := h.places.length_eq
  simp only [State.owned, ids, List.length_append, List.length_map, List.length_range] at hlength
  omega

/-- The slot a return is about to write is a consumed one. -/
theorem oldBack_vacant {call : Return κ} (hcall : s.queueMutex = some call) : s.streams[call.oldBack]? = some (-1) := by
  have hroom := h.length_le
  rw [hcall, Option.toList_some, List.length_singleton] at hroom
  have hslot := h.holds.getElem? (by rw [h.length]; omega : xs.length < s.streams.length)
  rw [List.getElem?_eq_none (Nat.le_refl _), h.length] at hslot
  rw [h.oldBack call hcall, hslot, Option.getD_none]

theorem idle_perm : s.idle.Perm xs := by
  obtain ⟨room, hperm⟩ := h.holds.perm
  have hxs : xs.filter (0 ≤ ·) = xs := List.filter_eq_self.mpr (by simpa using h.nonneg)
  have hroom : (List.replicate room (-1 : Int)).filter (0 ≤ ·) = [] := List.filter_eq_nil_iff.mpr (by simp)
  have hfilter := hperm.filter (0 ≤ ·)
  rwa [List.filter_append, hxs, hroom, List.append_nil] at hfilter

theorem getIdleStream {client : κ} (ht : s.getIdleStream client = some t) : Sound n t xs := by
  unfold State.getIdleStream at ht
  split at ht
  next hfree =>
    cases Option.some.inj ht
    refine ⟨h.length, h.frontIdx, h.backIdx, h.holds, h.nonneg, h.oldBack, ?_, h.places, h.queued⟩
    intro holder hholder htakes hnil
    rw [if_pos (h.front_neg.mpr hnil)] at hholder
    exact htakes _ (Option.some.inj hholder).symm
  next => cases ht

theorem push (ht : s.push = some t) : Sound n t xs := by
  unfold State.push at ht
  split at ht
  next promise hfront hfree =>
    cases Option.some.inj ht
    refine ⟨h.length, h.frontIdx, h.backIdx, h.holds, h.nonneg, h.oldBack, nofun, h.places, ?_⟩
    change s.queued ++ [promise] = s.popped ++ (s.promises ++ [promise])
    rw [h.queued, List.append_assoc]
  next => cases ht

theorem tryToGetIdleStream {client : κ} (ht : s.tryToGetIdleStream client = some t) : Sound n t xs := by
  unfold State.tryToGetIdleStream at ht
  split at ht
  next hfree =>
    split at ht
    next => exact Option.some.inj ht ▸ h
    next hidle =>
      cases Option.some.inj ht
      refine ⟨h.length, h.frontIdx, h.backIdx, h.holds, h.nonneg, h.oldBack, ?_, h.places, h.queued⟩
      intro holder _ _ hnil
      exact hidle (h.front_neg.mpr hnil)
  next => cases ht

omit h in
theorem consumeFront {id : Int} (h : Sound n s (id :: xs)) :
    s.consumeFront.streams.length = n ∧ s.consumeFront.frontIdx < n ∧
      s.consumeFront.backIdx = (s.consumeFront.frontIdx + (xs.length + s.queueMutex.toList.length)) % n ∧
      RingBuffer.Holds (-1) s.consumeFront.streams s.consumeFront.frontIdx xs ∧
      (∀ call, s.queueMutex = some call → call.oldBack = (s.consumeFront.frontIdx + xs.length) % n) := by
  have hfront : s.frontIdx < s.streams.length := h.length ▸ h.frontIdx
  have hnext : s.consumeFront.frontIdx = (s.frontIdx + 1) % n := by rw [← h.length]; rfl
  refine ⟨List.length_set.trans h.length, ?_, ?_, h.holds.pop hfront, ?_⟩
  · rw [hnext]
    exact Nat.mod_lt _ (by have := h.frontIdx; omega)
  · rw [hnext, Nat.mod_add_mod]
    refine h.backIdx.trans ?_
    rw [List.length_cons]
    congr 1
    omega
  · intro call hcall
    rw [hnext, Nat.mod_add_mod, h.oldBack call hcall, List.length_cons]
    congr 1
    omega

theorem take (ht : s.take = some t) : Sound n t xs.tail := by
  unfold State.take at ht
  split at ht
  next promise hholder =>
    cases Option.some.inj ht
    cases xs with
    | nil => exact absurd rfl (h.consumes _ hholder (by simp))
    | cons id xs =>
      obtain ⟨hlength, hfront, hback, hholds, hold⟩ := h.consumeFront
      refine ⟨hlength, hfront, hback, hholds, fun x hx => h.nonneg x (List.mem_cons_of_mem _ hx), hold, nofun, ?_, h.queued⟩
      refine .trans (List.perm_iff_count.mpr fun x => ?_) h.places
      simp only [State.promised, State.owned, State.consumeFront, h.front_eq, List.headD_cons, List.tail_cons,
        List.map_append, List.map_cons, List.map_nil, List.count_append, List.count_cons, List.count_nil]
      omega
  next client hholder =>
    cases Option.some.inj ht
    cases xs with
    | nil => exact absurd rfl (h.consumes _ hholder (by simp))
    | cons id xs =>
      obtain ⟨hlength, hfront, hback, hholds, hold⟩ := h.consumeFront
      refine ⟨hlength, hfront, hback, hholds, fun x hx => h.nonneg x (List.mem_cons_of_mem _ hx), hold, nofun, ?_, h.queued⟩
      refine .trans (List.perm_iff_count.mpr fun x => ?_) h.places
      simp only [State.promised, State.owned, State.consumeFront, h.front_eq, List.headD_cons, List.tail_cons,
        List.map_append, List.map_cons, List.map_nil, List.count_append, List.count_cons, List.count_nil]
      omega
  next => cases ht

omit h in
theorem count_erase {β : Type*} [DecidableEq β] {l : List (β × Int)} {holder : β} {id : Int} (hmem : (holder, id) ∈ l)
    (x : Int) : (l.map Prod.snd).count x = ((l.erase (holder, id)).map Prod.snd).count x + if id = x then 1 else 0 := by
  rw [((List.perm_cons_erase hmem).map Prod.snd).count_eq x, List.map_cons, List.count_cons]
  simp only [beq_iff_eq]

variable [DecidableEq κ]

theorem setValue {promise : IdleStreamPromise κ} {value : Int} (ht : s.setValue promise value = some t) :
    Sound n t xs := by
  unfold State.setValue at ht
  split at ht
  next hmem =>
    cases Option.some.inj ht
    refine ⟨h.length, h.frontIdx, h.backIdx, h.holds, h.nonneg, h.oldBack, h.consumes, ?_, h.queued⟩
    refine .trans (List.perm_iff_count.mpr fun x => ?_) h.places
    have herase := count_erase hmem x
    simp only [State.promised, State.owned, List.map_append, List.map_cons, List.map_nil, List.count_append,
      List.count_cons, List.count_nil, beq_iff_eq]
    omega
  next => cases ht

theorem get {promise : IdleStreamPromise κ} {value : Int} (ht : s.get promise value = some t) : Sound n t xs := by
  unfold State.get at ht
  split at ht
  next hmem =>
    cases Option.some.inj ht
    refine ⟨h.length, h.frontIdx, h.backIdx, h.holds, h.nonneg, h.oldBack, h.consumes, ?_, h.queued⟩
    refine .trans (List.perm_iff_count.mpr fun x => ?_) h.places
    have herase := count_erase hmem x
    simp only [State.promised, State.owned, List.map_append, List.map_cons, List.map_nil, List.count_append,
      List.count_cons, List.count_nil, beq_iff_eq]
    omega
  next => cases ht

theorem returnStream {client : κ} {streamID : Int} (ht : s.returnStream client streamID = some t) : Sound n t xs := by
  unfold State.returnStream at ht
  split at ht
  next hcall =>
    obtain ⟨hmem, hfree⟩ := hcall
    have hfree : s.queueMutex = none := by simpa using hfree
    split at ht
    next promise promises hpromises =>
      cases Option.some.inj ht
      refine ⟨h.length, h.frontIdx, h.backIdx, h.holds, h.nonneg, h.oldBack, h.consumes, ?_, ?_⟩
      · refine .trans (List.perm_iff_count.mpr fun x => ?_) h.places
        have herase := count_erase hmem x
        simp only [State.promised, State.owned, List.map_append, List.map_cons, List.map_nil, List.count_append,
          List.count_cons, List.count_nil, beq_iff_eq]
        omega
      · rw [h.queued, hpromises, List.append_assoc, List.singleton_append]
    next hpromises =>
      cases Option.some.inj ht
      have hback := h.backIdx
      rw [hfree, Option.toList_none, List.length_nil, Nat.add_zero] at hback
      refine ⟨h.length, h.frontIdx, ?_, h.holds, h.nonneg, ?_, h.consumes, ?_, h.queued⟩
      · change (s.backIdx + 1) % s.streams.length = _
        rw [h.length, hback, Nat.mod_add_mod]
        rfl
      · intro call hcall
        cases Option.some.inj hcall
        exact hback
      · refine .trans (List.perm_iff_count.mpr fun x => ?_) h.places
        have herase := count_erase hmem x
        simp only [State.promised, State.owned, hfree, Option.toList_some, Option.toList_none, List.map_append,
          List.map_cons, List.map_nil, List.count_append, List.count_cons, List.count_nil, beq_iff_eq]
        omega
  next => cases ht

omit [DecidableEq κ] in
theorem writeSlot {call : Return κ} (hcall : s.queueMutex = some call) (ht : s.writeSlot = some t) :
    Sound n t (xs ++ [call.streamID]) := by
  unfold State.writeSlot at ht
  rw [hcall] at ht
  cases Option.some.inj ht
  have hroom := h.length_le
  rw [hcall, Option.toList_some, List.length_singleton] at hroom
  have hback := h.backIdx
  rw [hcall, Option.toList_some, List.length_singleton] at hback
  have hpush := h.holds.push (by rw [h.length]; omega) call.streamID
  rw [h.length, ← h.oldBack call hcall] at hpush
  have hplaces : (xs ++ [call.streamID] ++ s.promised ++ s.obtained.map Prod.snd).Perm (ids n) := by
    refine .trans (List.perm_iff_count.mpr fun x => ?_) h.places
    simp only [State.owned, hcall, Option.toList_some, List.map_append, List.map_cons, List.map_nil,
      List.count_append, List.count_cons, List.count_nil]
    omega
  refine ⟨List.length_set.trans h.length, h.frontIdx, ?_, hpush, ?_, nofun, ?_, ?_, h.queued⟩
  · rw [List.length_append, List.length_singleton]
    exact hback
  · intro x hx
    have hmem : x ∈ ids n := hplaces.subset (List.mem_append_left _ (List.mem_append_left _ hx))
    obtain ⟨k, -, rfl⟩ := List.mem_map.mp hmem
    exact Int.natCast_nonneg k
  · intro holder hholder htakes hnil
    simp at hnil
  · simpa [State.promised, State.owned] using hplaces

/-- A step of any of the calls keeps the queue sound. -/
theorem step {action : Action κ} (ht : step s action = some t) : ∃ ys, Sound n t ys := by
  cases action with
  | getIdleStream client => exact ⟨_, h.getIdleStream ht⟩
  | push => exact ⟨_, h.push ht⟩
  | tryToGetIdleStream client => exact ⟨_, h.tryToGetIdleStream ht⟩
  | take => exact ⟨_, h.take ht⟩
  | setValue promise value => exact ⟨_, h.setValue ht⟩
  | get promise value => exact ⟨_, h.get ht⟩
  | returnStream client streamID => exact ⟨_, h.returnStream ht⟩
  | writeSlot =>
    cases hcall : s.queueMutex with
    | none =>
      change s.writeSlot = some t at ht
      rw [State.writeSlot, hcall] at ht
      cases ht
    | some call => exact ⟨_, h.writeSlot hcall ht⟩

end Sound

open Runs

variable [DecidableEq κ]

theorem reaches_sound {n : Nat} {allowed : State κ → Action κ → Prop} {s : State κ} (hn : 0 < n)
    (h : Reaches step allowed (initial n) s) : ∃ xs, Sound n s xs := by
  apply h.keeps ⟨_, initial_sound hn⟩
  intro s t action hs _ ht
  obtain ⟨xs, hs⟩ := hs
  exact hs.step ht

theorem ids_nodup (n : Nat) : (ids n).Nodup :=
  List.nodup_range.map fun _ _ h => Int.ofNat.inj h

omit [DecidableEq κ] in
theorem Sound.owner_unique {n : Nat} {s : State κ} {xs : List Int} (h : Sound n s xs) {client client' : κ} {id : Int}
    (hclient : (client, id) ∈ s.owned) (hclient' : (client', id) ∈ s.owned) : client = client' := by
  have hnodup := (List.nodup_append.mp (h.places.nodup_iff.mpr (ids_nodup n))).2.1
  have heq := List.inj_on_of_nodup_map hnodup hclient hclient' rfl
  exact congrArg Prod.fst heq

/-- Whatever the order of the steps: every id has one place and at most one client, a return writes a consumed
slot only, and promises leave the queue in the order in which they were pushed. -/
theorem exclusive_ownership {n : Nat} (hn : 0 < n) {s : State κ} (h : Reaches step anyStep (initial n) s) :
    (s.idle ++ s.promised ++ s.owned.map Prod.snd).Perm (ids n) ∧
      (∀ client client' id, (client, id) ∈ s.owned → (client', id) ∈ s.owned → client = client') ∧
      (∀ call, s.queueMutex = some call → s.streams[call.oldBack]? = some (-1)) ∧
      s.queued = s.popped ++ s.promises := by
  obtain ⟨xs, hs⟩ := reaches_sound hn h
  refine ⟨?_, fun _ _ _ => hs.owner_unique, fun _ => hs.oldBack_vacant, hs.queued⟩
  rw [List.append_assoc]
  refine .trans (hs.idle_perm.append_right _) ?_
  rw [← List.append_assoc]
  exact hs.places

/-- Two clients hold the two ids, two others wait; both ids are returned before the first promise is fulfilled. -/
def overtaking : List (Action Nat) := [
  .getIdleStream 1, .take, .setValue ⟨0, 1⟩ 0, .get ⟨0, 1⟩ 0, .getIdleStream 2, .take, .setValue ⟨1, 2⟩ 1, .get ⟨1, 2⟩ 1,
  .getIdleStream 3, .push, .getIdleStream 4, .push, .returnStream 1 0, .returnStream 2 1, .setValue ⟨3, 4⟩ 1]

theorem exclusive_ownership_overtaking : 0 < 2 ∧ ∃ s : State Nat, run step (initial 2) overtaking = some s ∧
    (s.idle ++ s.promised ++ s.owned.map Prod.snd).Perm (ids 2) ∧
      (∀ client client' id, (client, id) ∈ s.owned → (client', id) ∈ s.owned → client = client') ∧
      (∀ call, s.queueMutex = some call → s.streams[call.oldBack]? = some (-1)) ∧
      s.queued = s.popped ++ s.promises := by
  have hsome : (run step (initial 2) overtaking).isSome = true := by decide
  obtain ⟨s, hrun⟩ := Option.isSome_iff_exists.mp hsome
  exact ⟨by decide, s, hrun, exclusive_ownership (by decide) (reaches_of_run hrun)⟩

/-- The value of a promise is set without a lock, so the promises of the queue are not fulfilled in their order. -/
theorem values_out_of_order : ∃ s : State Nat, Reaches step anyStep (initial 2) s ∧
    ¬ s.valuesSet.filter (· ∈ s.queued) <+: s.queued := by
  have hset : (run step (initial 2) overtaking).map (fun s => decide (s.valuesSet.filter (· ∈ s.queued) <+: s.queued)) =
      some false := by
    decide
  obtain ⟨s, hrun, hs⟩ := Option.map_eq_some_iff.mp hset
  exact ⟨s, reaches_of_run hrun, of_decide_eq_false hs⟩

/-- All calls have ended, a promise is still pending, and the ring holds an idle stream. -/
def Stranded (s : State κ) : Prop :=
  s.frontMut = none ∧ s.queueMutex = none ∧ s.fulfilling = [] ∧ s.promises ≠ [] ∧ s.idle ≠ []

/-- The promise that a `getIdleStream` is about to push. -/
def State.waiting (s : State κ) : Option (IdleStreamPromise κ) :=
  match s.frontMut with
  | some (.waits promise) => some promise
  | _ => none

/-- A `getIdleStream` finds the slot consumed while no return writes one, and a return finds no promise while no
`getIdleStream` is about to push its own. -/
def Undisturbed (s : State κ) : Action κ → Prop
  | .getIdleStream _ => s.front < 0 → s.queueMutex = none
  | .returnStream _ _ => s.promises = [] → s.waiting = none
  | _ => True

instance (s : State κ) : ∀ action, Decidable (Undisturbed s action)
  | .getIdleStream _ => inferInstanceAs (Decidable (s.front < 0 → s.queueMutex = none))
  | .returnStream _ _ => inferInstanceAs (Decidable (s.promises = [] → s.waiting = none))
  | .push | .tryToGetIdleStream _ | .take | .setValue _ _ | .get _ _ | .writeSlot => inferInstanceAs (Decidable True)

/-- While a promise is queued or about to be, no stream is idle and none becomes idle. -/
def Attended (s : State κ) (xs : List Int) : Prop :=
  (s.promises ≠ [] ∨ s.waiting ≠ none) → xs = [] ∧ s.queueMutex = none

theorem Attended.step {n : Nat} {s t : State κ} {xs : List Int} {action : Action κ} (hs : Sound n s xs)
    (h : Attended s xs) (hundisturbed : Undisturbed s action) (ht : step s action = some t) :
    ∃ ys, Sound n t ys ∧ Attended t ys := by
  cases action with
  | getIdleStream client =>
    refine ⟨xs, hs.getIdleStream ht, ?_⟩
    replace ht : s.getIdleStream client = some t := ht
    unfold State.getIdleStream at ht
    split at ht
    next hfree =>
      cases Option.some.inj ht
      intro hwaits
      by_cases hneg : s.front < 0
      · exact ⟨hs.front_neg.mp hneg, hundisturbed hneg⟩
      · simp only [State.waiting, if_neg hneg, ne_eq, not_true_eq_false, or_false] at hwaits
        exact h (.inl hwaits)
    next => cases ht
  | push =>
    refine ⟨xs, hs.push ht, ?_⟩
    replace ht : s.push = some t := ht
    unfold State.push at ht
    split at ht
    next promise hfront hfree =>
      cases Option.some.inj ht
      exact fun _ => h (.inr (by simp [State.waiting, hfront]))
    next => cases ht
  | tryToGetIdleStream client =>
    refine ⟨xs, hs.tryToGetIdleStream ht, ?_⟩
    replace ht : s.tryToGetIdleStream client = some t := ht
    unfold State.tryToGetIdleStream at ht
    split at ht
    next hfree =>
      split at ht
      next => exact Option.some.inj ht ▸ h
      next =>
        cases Option.some.inj ht
        intro hwaits
        exact h (.inl (hwaits.resolve_right (by simp [State.waiting])))
    next => cases ht
  | take =>
    refine ⟨xs.tail, hs.take ht, ?_⟩
    replace ht : s.take = some t := ht
    -- a call that takes the front id found an idle stream, so no promise is queued
    have hempty : xs = [] → ¬ ∃ t, s.take = some t := by
      intro hnil ⟨t, ht⟩
      unfold State.take at ht
      split at ht
      next promise hfront => exact hs.consumes _ hfront (by simp) hnil
      next client hfront => exact hs.consumes _ hfront (by simp) hnil
      next => cases ht
    have hkept : t.promises = s.promises ∧ t.waiting = none := by
      unfold State.take at ht
      split at ht
      next => cases Option.some.inj ht; exact ⟨rfl, rfl⟩
      next => cases Option.some.inj ht; exact ⟨rfl, rfl⟩
      next => cases ht
    intro hwaits
    rw [hkept.1, hkept.2] at hwaits
    exact absurd ⟨t, ht⟩ (hempty (h (.inl (hwaits.resolve_right (by simp)))).1)
  | setValue promise value =>
    refine ⟨xs, hs.setValue ht, ?_⟩
    replace ht : s.setValue promise value = some t := ht
    unfold State.setValue at ht
    split at ht
    next => cases Option.some.inj ht; exact h
    next => cases ht
  | get promise value =>
    refine ⟨xs, hs.get ht, ?_⟩
    replace ht : s.get promise value = some t := ht
    unfold State.get at ht
    split at ht
    next => cases Option.some.inj ht; exact h
    next => cases ht
  | returnStream client streamID =>
    refine ⟨xs, hs.returnStream ht, ?_⟩
    replace ht : s.returnStream client streamID = some t := ht
    unfold State.returnStream at ht
    split at ht
    next hcall =>
      split at ht
      next promise promises hpromises =>
        cases Option.some.inj ht
        intro _
        exact h (.inl (by simp [hpromises]))
      next hpromises =>
        cases Option.some.inj ht
        intro hwaits
        obtain hqueued | hfront := hwaits
        · exact absurd hpromises hqueued
        · exact absurd (hundisturbed hpromises) hfront
    next => cases ht
  | writeSlot =>
    cases hcall : s.queueMutex with
    | none =>
      replace ht : s.writeSlot = some t := ht
      rw [State.writeSlot, hcall] at ht
      cases ht
    | some call =>
      refine ⟨_, hs.writeSlot hcall ht, ?_⟩
      replace ht : s.writeSlot = some t := ht
      rw [State.writeSlot, hcall] at ht
      cases Option.some.inj ht
      intro hwaits
      have hfree := (h hwaits).2
      rw [hcall] at hfree
      cases hfree

/-- No promise stays pending beside an idle stream in a run without the two disturbances. -/
theorem not_stranded {n : Nat} (hn : 0 < n) {s : State κ} (h : Reaches step Undisturbed (initial n) s) :
    ¬ Stranded s := by
  have hinvariant : ∃ xs, Sound n s xs ∧ Attended s xs := by
    apply h.keeps ⟨_, initial_sound hn, by simp [Attended, initial, State.waiting]⟩
    intro s t action hs hundisturbed ht
    obtain ⟨xs, hs, hattended⟩ := hs
    exact hattended.step hs hundisturbed ht
  obtain ⟨xs, hs, hattended⟩ := hinvariant
  intro hstranded
  obtain ⟨-, -, -, hpromises, hidle⟩ := hstranded
  have hnil := (hattended (.inl hpromises)).1
  exact hidle (List.Perm.eq_nil (hnil ▸ hs.idle_perm))

/-- The only id is returned and waited for again, one call after the other. -/
def handedOver : List (Action Nat) := [
  .getIdleStream 1, .take, .setValue ⟨0, 1⟩ 0, .get ⟨0, 1⟩ 0, .getIdleStream 2, .push, .returnStream 1 0,
  .setValue ⟨1, 2⟩ 0, .get ⟨1, 2⟩ 0]

theorem not_stranded_handedOver : 0 < 1 ∧ ∃ s : State Nat, run step (initial 1) handedOver = some s ∧ ¬ Stranded s := by
  have hsome : (run step (initial 1) handedOver).isSome = true := by decide
  obtain ⟨s, hrun⟩ := Option.isSome_iff_exists.mp hsome
  have hallows : Allows step Undisturbed (initial 1) handedOver := by decide
  exact ⟨by decide, s, hrun, not_stranded (by decide) (Reaches.run .refl hallows hrun)⟩

/-- The only id is returned after the test of the front slot and before the promise is pushed. -/
def lostWakeup : List (Action Nat) := [
  .getIdleStream 1, .take, .setValue ⟨0, 1⟩ 0, .get ⟨0, 1⟩ 0, .getIdleStream 2, .returnStream 1 0, .writeSlot, .push]

theorem lostWakeup_stranded : ∃ s : State Nat, Reaches step anyStep (initial 1) s ∧ Stranded s := by
  have hrun : ∃ s, run step (initial 1) lostWakeup = some s ∧ s.frontMut = none ∧ s.queueMutex = none ∧
      s.fulfilling = [] ∧ s.promises = [⟨1, 2⟩] ∧ s.idle = [0] :=
    ⟨_, rfl, rfl, rfl, rfl, rfl, rfl⟩
  obtain ⟨s, hrun, hfront, hqueue, hfulfilling, hpromises, hidle⟩ := hrun
  exact ⟨s, reaches_of_run hrun, hfront, hqueue, hfulfilling, by simp [hpromises], by simp [hidle]⟩

end ModelServer.StreamQueue
