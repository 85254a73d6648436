import Mathlib
import ModelServer.Delta

namespace ModelServer

/-- The index counter of a tool parser and the indices whose first and whose complete delta it has returned. -/
structure SentDeltas where
  toolCallIndex : Int := -1
  returnedFirstDeltas : Finset Int := ∅
  returnedCompleteDeltas : Finset Int := ∅

namespace SentDeltas

/-- The first delta of a call, unless one more of them was returned than of the complete ones. -/
def sendFirstDeltaIfNeeded (s : SentDeltas) (id name : Str) : Option ToolCallDelta × SentDeltas :=
  if s.returnedFirstDeltas.card = s.returnedCompleteDeltas.card + 1 then (none, s)
  else (some ⟨s.toolCallIndex + 1, some id, some name, []⟩,
    { s with
      toolCallIndex := s.toolCallIndex + 1
      returnedFirstDeltas := insert (s.toolCallIndex + 1) s.returnedFirstDeltas })

/-- The arguments of a call whose first delta was returned. -/
def sendArguments (s : SentDeltas) (toolCall : ToolCall) : ToolCallDelta × SentDeltas :=
  (⟨s.toolCallIndex, none, none, toolCall.arguments⟩,
    { s with returnedCompleteDeltas := insert s.toolCallIndex s.returnedCompleteDeltas })

/-- The name and the arguments of a call in one delta. -/
def sendCombined (s : SentDeltas) (id : Str) (toolCall : ToolCall) : ToolCallDelta × SentDeltas :=
  (⟨s.toolCallIndex + 1, some id, some toolCall.name, toolCall.arguments⟩,
    { toolCallIndex := s.toolCallIndex + 1
      returnedFirstDeltas := insert (s.toolCallIndex + 1) s.returnedFirstDeltas
      returnedCompleteDeltas := insert (s.toolCallIndex + 1) s.returnedCompleteDeltas })

/-- What is returned for a call that is complete: a parser that combines does so when no first delta was returned under
the index that it looks up. -/
def sendFullDelta (combines : Bool) (s : SentDeltas) (id : Str) (toolCall : ToolCall) : ToolCallDelta × SentDeltas :=
  if combines && (s.toolCallIndex ∉ s.returnedFirstDeltas || s.toolCallIndex = -1) then s.sendCombined id toolCall
  else s.sendArguments toolCall

/-- No call is open: the first `n` indices have both deltas. -/
structure Idle (s : SentDeltas) (n : Nat) : Prop where
  index : s.toolCallIndex = n - 1
  first : s.returnedFirstDeltas = Finset.Ico 0 (n : Int)
  complete : s.returnedCompleteDeltas = Finset.Ico 0 (n : Int)

/-- The call with index `n` has its first delta only. -/
structure Open (s : SentDeltas) (n : Nat) : Prop where
  index : s.toolCallIndex = n
  first : s.returnedFirstDeltas = Finset.Ico 0 (n + 1 : Int)
  complete : s.returnedCompleteDeltas = Finset.Ico 0 (n : Int)

theorem Idle.start : Idle {} 0 := ⟨rfl, rfl, rfl⟩

theorem insert_Ico (n : Nat) : insert (n : Int) (Finset.Ico 0 (n : Int)) = Finset.Ico 0 (n + 1 : Int) := by
  ext i
  simp only [Finset.mem_insert, Finset.mem_Ico]
  omega

variable {s : SentDeltas} {n : Nat} (combines : Bool)

theorem Idle.sendFirst (h : Idle s n) (id name : Str) :
    (s.sendFirstDeltaIfNeeded id name).1 = some ⟨n, some id, some name, []⟩ ∧ Open (s.sendFirstDeltaIfNeeded id name).2 n := by
  have hindex : s.toolCallIndex + 1 = n := by rw [h.index]; omega
  rw [sendFirstDeltaIfNeeded, if_neg (by rw [h.first, h.complete]; omega), hindex]
  exact ⟨rfl, rfl, by rw [h.first, insert_Ico], h.complete⟩

theorem Open.sendFirst (h : Open s n) (id name : Str) : s.sendFirstDeltaIfNeeded id name = (none, s) := by
  rw [sendFirstDeltaIfNeeded, if_pos]
  rw [h.first, h.complete, Int.card_Ico, Int.card_Ico]
  omega

theorem Open.sendFull (h : Open s n) (id : Str) (toolCall : ToolCall) :
    (sendFullDelta combines s id toolCall).1 = ⟨n, none, none, toolCall.arguments⟩ ∧
      Idle (sendFullDelta combines s id toolCall).2 (n + 1) := by
  have hsent : ¬ (combines && (s.toolCallIndex ∉ s.returnedFirstDeltas || s.toolCallIndex = -1)) = true := by
    have hmem : s.toolCallIndex ∈ s.returnedFirstDeltas := by
      rw [h.first, h.index, Finset.mem_Ico]
      omega
    have hne : s.toolCallIndex ≠ -1 := by rw [h.index]; omega
    simp [hmem, hne]
  rw [sendFullDelta, if_neg hsent, sendArguments, h.index]
  refine ⟨rfl, ?_, ?_, ?_⟩
  · show (n : Int) = (n + 1 : Nat) - 1
    omega
  · show s.returnedFirstDeltas = _
    rw [h.first, Nat.cast_succ]
  · show insert (n : Int) s.returnedCompleteDeltas = _
    rw [h.complete, insert_Ico, Nat.cast_succ]

/-- A call without a first delta, after another one: its arguments go to the other one. -/
theorem Idle.sendFull (h : Idle s (n + 1)) (id : Str) (toolCall : ToolCall) :
    (sendFullDelta combines s id toolCall).1 = ⟨n, none, none, toolCall.arguments⟩ ∧
      Idle (sendFullDelta combines s id toolCall).2 (n + 1) := by
  have hindex : s.toolCallIndex = n := by rw [h.index]; omega
  have hsent : ¬ (combines && (s.toolCallIndex ∉ s.returnedFirstDeltas || s.toolCallIndex = -1)) = true := by
    have hmem : s.toolCallIndex ∈ s.returnedFirstDeltas := by
      rw [h.first, hindex, Finset.mem_Ico]
      omega
    have hne : s.toolCallIndex ≠ -1 := by rw [hindex]; omega
    simp [hmem, hne]
  rw [sendFullDelta, if_neg hsent, sendArguments, hindex]
  refine ⟨rfl, hindex.symm.trans h.index, h.first, ?_⟩
  show insert (n : Int) s.returnedCompleteDeltas = _
  rw [h.complete, Finset.insert_eq_of_mem]
  rw [Finset.mem_Ico]
  omega

/-- The first call of all, without a first delta. -/
theorem Idle.sendCombined (h : Idle s 0) (id : Str) (toolCall : ToolCall) :
    (sendFullDelta true s id toolCall).1 = ⟨0, some id, some toolCall.name, toolCall.arguments⟩ ∧
      Idle (sendFullDelta true s id toolCall).2 1 := by
  have hindex : s.toolCallIndex = -1 := h.index
  rw [sendFullDelta, if_pos (by simp [hindex]), SentDeltas.sendCombined, hindex]
  refine ⟨rfl, rfl, ?_, ?_⟩
  · show insert (0 : Int) s.returnedFirstDeltas = _
    rw [h.first]
    rfl
  · show insert (0 : Int) s.returnedCompleteDeltas = _
    rw [h.complete]
    rfl

theorem Idle.sendNegative (h : Idle s 0) (id : Str) (toolCall : ToolCall) : (sendFullDelta false s id toolCall).1.index = -1 :=
  h.index

section Events

/-- What the inner parser has after a chunk: the name and the arguments of a call that the chunk completes, or the name of
an open call. -/
inductive ChunkEvent
  | completed (call : Str × Str)
  | named (name : Str)
  | silent

def react (combines : Bool) (s : SentDeltas) (id : Str) : ChunkEvent → Option ToolCallDelta × SentDeltas
  | .completed call => (some (sendFullDelta combines s id ⟨[], call.1, call.2⟩).1, (sendFullDelta combines s id ⟨[], call.1, call.2⟩).2)
  | .named name => s.sendFirstDeltaIfNeeded id name
  | .silent => (none, s)

/-- The deltas of one chunk after the other, with the ids that are drawn. -/
def reactAll (combines : Bool) (s : SentDeltas) : List (Str × ChunkEvent) → List ToolCallDelta
  | [] => []
  | (id, event) :: events => (react combines s id event).1.toList ++ reactAll combines (react combines s id event).2 events

/-- The events of calls that are completed one after the other; only the open call is named. -/
inductive Course : List (Str × Str) → List (Str × ChunkEvent) → Prop
  | ended : Course [] []
  | silent {calls id events} : Course calls events → Course calls ((id, .silent) :: events)
  | named {call calls id events} : Course (call :: calls) events →
      Course (call :: calls) ((id, .named call.1) :: events)
  | completed {call calls id events} : Course calls events → Course (call :: calls) ((id, .completed call) :: events)

/-- For each completed call, whether it was named before. -/
def announced (opened : Bool) : List (Str × ChunkEvent) → List Bool
  | [] => []
  | (_, .silent) :: events => announced opened events
  | (_, .named _) :: events => announced true events
  | (_, .completed _) :: events => opened :: announced false events

theorem Course.announced_length {calls : List (Str × Str)} {events : List (Str × ChunkEvent)} (h : Course calls events)
    (opened : Bool) : (announced opened events).length = calls.length := by
  induction h generalizing opened with
  | ended => rfl
  | silent _ ih => exact ih opened
  | named _ ih => exact ih true
  | completed _ ih => exact congrArg Nat.succ (ih false)

/-- The deltas of a call, under its index. -/
inductive CallGroup (n : Nat) (call : Str × Str) : List ToolCallDelta → Prop
  | parts (id : Str) : CallGroup n call [⟨n, some id, some call.1, []⟩, ⟨n, none, none, call.2⟩]
  | combined (id : Str) : CallGroup n call [⟨n, some id, some call.1, call.2⟩]

/-- The groups of calls in order. -/
inductive Grouped : Nat → List (Str × Str) → List ToolCallDelta → Prop
  | nil (n : Nat) : Grouped n [] []
  | cons {n call calls group deltas} : CallGroup n call group → Grouped (n + 1) calls deltas →
      Grouped n (call :: calls) (group ++ deltas)

/-- Where every call is named before it is complete, each has its group. -/
theorem Course.grouped {calls : List (Str × Str)} {events : List (Str × ChunkEvent)} (h : Course calls events) :
    (∀ s n, Idle s n → (∀ flag ∈ announced false events, flag = true) → Grouped n calls (reactAll combines s events)) ∧
    ∀ s n call later, calls = call :: later → Open s n → (∀ flag ∈ announced true events, flag = true) →
      ∃ deltas, reactAll combines s events = ⟨n, none, none, call.2⟩ :: deltas ∧ Grouped (n + 1) later deltas := by
  induction h with
  | ended => exact ⟨fun s n _ _ => .nil n, fun s n call later hcalls => by cases hcalls⟩
  | silent _ ih => exact ih
  | @named call calls id events _ ih =>
    constructor
    · intro s n hidle hflags
      obtain ⟨hdelta, hopen⟩ := hidle.sendFirst id call.1
      obtain ⟨deltas, hdeltas, hgrouped⟩ := ih.2 _ n call calls rfl hopen hflags
      rw [reactAll, react, hdelta, hdeltas]
      show Grouped n (call :: calls) ([_, _] ++ deltas)
      exact .cons (.parts id) hgrouped
    · intro s n call' later hcalls hopen hflags
      rw [reactAll, react, hopen.sendFirst]
      exact ih.2 s n call' later hcalls hopen hflags
  | @completed call calls id events _ ih =>
    constructor
    · intro s n _ hflags
      exact absurd (hflags false List.mem_cons_self) (by decide)
    · intro s n call' later hcalls hopen hflags
      cases hcalls
      obtain ⟨hdelta, hidle⟩ := hopen.sendFull combines id ⟨[], call.1, call.2⟩
      refine ⟨_, ?_, ih.1 _ (n + 1) hidle fun flag hflag => hflags flag (List.mem_cons_of_mem _ hflag)⟩
      rw [reactAll, react, hdelta]
      rfl

/-- A parser that combines need not name the first call. -/
theorem Course.grouped_combined {calls : List (Str × Str)} {events : List (Str × ChunkEvent)} (h : Course calls events)
    {s : SentDeltas} (hidle : Idle s 0) (hflags : ∀ flag ∈ (announced false events).tail, flag = true) :
    Grouped 0 calls (reactAll true s events) := by
  induction h with
  | ended => exact .nil 0
  | silent _ ih => exact ih hflags
  | @named call calls id events hcourse =>
    have hhead : ∀ {events : List (Str × ChunkEvent)}, (∀ flag ∈ (announced true events).tail, flag = true) →
        ∀ flag ∈ announced true events, flag = true := by
      intro events
      induction events with
      | nil => exact fun _ flag hflag => by cases hflag
      | cons event events ih =>
        obtain ⟨_, event⟩ := event
        cases event with
        | completed _ => exact fun htail => List.forall_mem_cons.mpr ⟨rfl, htail⟩
        | named _ => exact ih
        | silent => exact ih
    exact ((Course.named hcourse).grouped true).1 s 0 hidle (hhead hflags)
  | @completed call calls id events hcourse =>
    obtain ⟨hdelta, hnext⟩ := hidle.sendCombined id ⟨[], call.1, call.2⟩
    rw [reactAll, react, hdelta]
    exact .cons (.combined id) ((hcourse.grouped true).1 _ 1 hnext hflags)

theorem Course.announced_pos {calls : List (Str × Str)} {events : List (Str × ChunkEvent)} (h : Course calls events) (hne : calls ≠ []) :
    0 < (announced true events).count true := by
  induction h with
  | ended => exact absurd rfl hne
  | silent _ ih => exact ih hne
  | named _ ih => exact ih hne
  | completed => exact List.count_pos_iff.mpr List.mem_cons_self

/-- Each delta has an index below the number of the calls that were named. -/
theorem Course.index_bound {calls : List (Str × Str)} {events : List (Str × ChunkEvent)} (h : Course calls events) :
    (∀ s n, Idle s (n + 1) → ∀ d ∈ reactAll combines s events, d.index ≤ n + (announced false events).count true) ∧
    ∀ s n, Open s n → calls ≠ [] → ∀ d ∈ reactAll combines s events, d.index + 1 ≤ n + (announced true events).count true := by
  induction h with
  | ended => exact ⟨fun s n _ d hd => (List.not_mem_nil hd).elim, fun s n _ _ d hd => (List.not_mem_nil hd).elim⟩
  | silent _ ih => exact ih
  | @named call calls id events hcourse ih =>
    constructor
    · intro s n hidle d hd
      obtain ⟨hdelta, hopen⟩ := hidle.sendFirst id call.1
      have hpos := hcourse.announced_pos (List.cons_ne_nil call calls)
      show d.index ≤ n + (announced true events).count true
      rw [reactAll, react, hdelta] at hd
      cases List.mem_cons.mp hd with
      | inl heq =>
        rw [heq]
        show ((n + 1 : Nat) : Int) ≤ _
        omega
      | inr hlater =>
        have hbound := ih.2 _ (n + 1) hopen (List.cons_ne_nil call calls) d hlater
        omega
    · intro s n hopen hne d hd
      rw [reactAll, react, hopen.sendFirst] at hd
      exact ih.2 s n hopen hne d hd
  | @completed call calls id events _ ih =>
    constructor
    · intro s n hidle d hd
      obtain ⟨hdelta, hnext⟩ := hidle.sendFull combines id ⟨[], call.1, call.2⟩
      show d.index ≤ n + (false :: announced false events).count true
      rw [List.count_cons_of_ne (by decide)]
      rw [reactAll, react, hdelta] at hd
      cases List.mem_cons.mp hd with
      | inl heq =>
        rw [heq]
        show (n : Int) ≤ _
        omega
      | inr hlater => exact ih.1 _ n hnext d hlater
    · intro s n hopen _ d hd
      obtain ⟨hdelta, hnext⟩ := hopen.sendFull combines id ⟨[], call.1, call.2⟩
      show d.index + 1 ≤ n + (true :: announced false events).count true
      rw [List.count_cons_self]
      rw [reactAll, react, hdelta] at hd
      cases List.mem_cons.mp hd with
      | inl heq =>
        rw [heq]
        show (n : Int) + 1 ≤ _
        omega
      | inr hlater =>
        have hbound := ih.1 _ n hnext d hlater
        omega

/-- The deltas of one index. -/
def group (deltas : List ToolCallDelta) (i : Nat) : List ToolCallDelta := deltas.filter fun d => d.index == i

/-- Grouped by index the deltas are the calls: the name and an id in the first delta of a group only, and the arguments
in its parts. -/
structure Reassembles (calls : List (Str × Str)) (deltas : List ToolCallDelta) : Prop where
  indices : ∀ d ∈ deltas, 0 ≤ d.index ∧ d.index < calls.length
  groups : ∀ i (h : i < calls.length), ∃ first rest, group deltas i = first :: rest ∧ first.name = some calls[i].1 ∧
    first.id.isSome ∧ (∀ d ∈ rest, d.name = none ∧ d.id = none) ∧ (group deltas i).flatMap ToolCallDelta.arguments = calls[i].2

theorem CallGroup.index {n : Nat} {call : Str × Str} {deltas : List ToolCallDelta} (h : CallGroup n call deltas) :
    ∀ d ∈ deltas, d.index = n := by
  cases h with
  | parts => simp
  | combined => simp

theorem Grouped.index {n : Nat} {calls : List (Str × Str)} {deltas : List ToolCallDelta} (h : Grouped n calls deltas) :
    ∀ d ∈ deltas, (n : Int) ≤ d.index ∧ d.index < n + calls.length := by
  induction h with
  | nil => exact fun d hd => (List.not_mem_nil hd).elim
  | cons hgroup _ ih =>
    intro d hd
    rw [List.length_cons]
    cases List.mem_append.mp hd with
    | inl hd =>
      have hindex := hgroup.index d hd
      omega
    | inr hd =>
      have hbounds := ih d hd
      omega

theorem Grouped.group {n : Nat} {calls : List (Str × Str)} {deltas : List ToolCallDelta} (h : Grouped n calls deltas) {i : Nat}
    (hi : i < calls.length) : CallGroup (n + i) calls[i] (SentDeltas.group deltas (n + i)) := by
  induction h generalizing i with
  | nil => exact absurd hi (Nat.not_lt_zero i)
  | @cons n call calls deltas' later hgroup hlater ih =>
    rw [SentDeltas.group, List.filter_append]
    cases i with
    | zero =>
      have hfirst : deltas'.filter (fun d => d.index == ((n + 0 : Nat) : Int)) = deltas' := by
        rw [List.filter_eq_self]
        intro d hd
        rw [hgroup.index d hd]
        exact beq_self_eq_true _
      have hnone : later.filter (fun d => d.index == ((n + 0 : Nat) : Int)) = [] := by
        rw [List.filter_eq_nil_iff]
        intro d hd heq
        have hbound := (hlater.index d hd).1
        rw [beq_iff_eq.mp heq] at hbound
        omega
      rw [hfirst, hnone, List.append_nil]
      exact hgroup
    | succ i =>
      have hnone : deltas'.filter (fun d => d.index == ((n + (i + 1) : Nat) : Int)) = [] := by
        rw [List.filter_eq_nil_iff]
        intro d hd heq
        rw [hgroup.index d hd] at heq
        have hindex := beq_iff_eq.mp heq
        omega
      rw [hnone, List.nil_append, show n + (i + 1) = n + 1 + i by omega]
      exact ih (Nat.lt_of_succ_lt_succ hi)

theorem Grouped.reassembles {calls : List (Str × Str)} {deltas : List ToolCallDelta} (h : Grouped 0 calls deltas) :
    Reassembles calls deltas where
  indices := by
    intro d hd
    have hbounds := h.index d hd
    omega
  groups := by
    intro i hi
    have hgroup := h.group hi
    rw [Nat.zero_add] at hgroup
    generalize SentDeltas.group deltas i = deltas' at hgroup ⊢
    cases hgroup with
    | parts id => exact ⟨_, _, rfl, rfl, rfl, by simp, by simp⟩
    | combined id => exact ⟨_, _, rfl, rfl, rfl, by simp, by simp⟩

/-- From the start: either the first call gets an index below zero, or the indices are bounded by the later calls that
were named. -/
theorem Course.start_bound {calls : List (Str × Str)} {events : List (Str × ChunkEvent)} (h : Course calls events)
    {s : SentDeltas} (hidle : Idle s 0) :
    (combines = false ∧ ∃ d ∈ reactAll combines s events, d.index < 0) ∨
      (combines = true ∨ ∀ flag ∈ (announced false events).head?, flag = true) ∧
        ∀ d ∈ reactAll combines s events, d.index ≤ (announced false events).tail.count true := by
  induction h with
  | ended => exact .inr ⟨.inr fun flag hflag => (Option.not_mem_none _ hflag).elim, fun d hd => (List.not_mem_nil hd).elim⟩
  | silent _ ih => exact ih
  | @named call calls id events hcourse =>
    obtain ⟨hdelta, hopen⟩ := hidle.sendFirst id call.1
    have hhead : ∀ {calls : List (Str × Str)} {events : List (Str × ChunkEvent)}, Course calls events → calls ≠ [] →
        ∃ flags, announced true events = true :: flags := by
      intro calls events hcourse
      induction hcourse with
      | ended => exact fun hne => absurd rfl hne
      | silent _ ih => exact ih
      | named _ ih => exact ih
      | completed => exact fun _ => ⟨_, rfl⟩
    obtain ⟨flags, hflags⟩ := hhead hcourse (List.cons_ne_nil call calls)
    have hbound := (hcourse.index_bound combines).2 _ 0 hopen (List.cons_ne_nil call calls)
    rw [hflags, List.count_cons_self] at hbound
    refine .inr ⟨.inr ?_, ?_⟩
    · show ∀ flag ∈ (announced true events).head?, flag = true
      rw [hflags]
      exact fun flag hflag => (Option.some.inj hflag).symm
    · intro d hd
      show d.index ≤ (announced true events).tail.count true
      rw [hflags, List.tail_cons]
      rw [reactAll, react, hdelta] at hd
      cases List.mem_cons.mp hd with
      | inl heq =>
        rw [heq]
        exact Int.natCast_nonneg _
      | inr hlater =>
        have hle := hbound d hlater
        omega
  | @completed call calls id events hcourse =>
    cases combines with
    | false =>
      refine .inl ⟨rfl, (sendFullDelta false s id ⟨[], call.1, call.2⟩).1, List.mem_cons_self, ?_⟩
      rw [hidle.sendNegative]
      omega
    | true =>
      obtain ⟨hdelta, hnext⟩ := hidle.sendCombined id ⟨[], call.1, call.2⟩
      refine .inr ⟨.inl rfl, ?_⟩
      intro d hd
      show d.index ≤ (announced false events).count true
      rw [reactAll, react, hdelta] at hd
      cases List.mem_cons.mp hd with
      | inl heq =>
        rw [heq]
        exact Int.natCast_nonneg _
      | inr hlater =>
        have hle := (hcourse.index_bound true).1 _ 0 hnext d hlater
        omega

/-- The deltas are the calls if and only if each call is named by a chunk before the one that completes it; a parser
that combines need not have the first one named. -/
theorem Course.reassembles_iff {calls : List (Str × Str)} {events : List (Str × ChunkEvent)} (h : Course calls events) :
    Reassembles calls (reactAll combines {} events) ↔
      ∀ i < calls.length, (combines = true ∧ i = 0) ∨ (announced false events)[i]? = some true := by
  have hlength := h.announced_length false
  constructor
  · intro hall i hi
    rw [← hlength] at hi
    rw [List.getElem?_eq_getElem hi, Option.some_inj]
    rcases h.start_bound combines Idle.start with ⟨-, d, hd, hnegative⟩ | ⟨hfirst, hbound⟩
    · have hnonneg := (hall.indices d hd).1
      omega
    · cases i with
      | zero =>
        refine hfirst.imp (fun hcombines => ⟨hcombines, rfl⟩) fun hhead => hhead _ ?_
        rw [List.head?_eq_getElem?, List.getElem?_eq_getElem hi]
        rfl
      | succ i =>
        -- the last call has a delta, so each of the later ones was named
        have hlast : calls.length - 1 < calls.length := by omega
        obtain ⟨first, rest, hgroup, -⟩ := hall.groups _ hlast
        have hmem : first ∈ group (reactAll combines {} events) (calls.length - 1) := hgroup ▸ List.mem_cons_self
        have hindex := beq_iff_eq.mp (List.mem_filter.mp hmem).2
        have hle := hbound first (List.mem_filter.mp hmem).1
        have hcount := List.count_eq_length.mp (Nat.le_antisymm (List.count_le_length (a := true))
          (by rw [List.length_tail]; omega : (announced false events).tail.length ≤ _))
        refine .inr (hcount _ ?_).symm
        rw [← List.getElem_tail (by rw [List.length_tail]; omega)]
        exact List.getElem_mem _
  · intro hflags
    refine Grouped.reassembles ?_
    cases combines with
    | false =>
      refine (h.grouped false).1 _ 0 Idle.start fun flag hflag => ?_
      obtain ⟨i, hi, rfl⟩ := List.mem_iff_getElem.mp hflag
      have hnamed := (hflags i (hlength ▸ hi)).resolve_left fun h => absurd h.1 (by decide)
      rwa [List.getElem?_eq_getElem hi, Option.some_inj] at hnamed
    | true =>
      refine h.grouped_combined Idle.start fun flag hflag => ?_
      obtain ⟨i, hi, rfl⟩ := List.mem_iff_getElem.mp hflag
      rw [List.length_tail] at hi
      have hi' : i + 1 < (announced false events).length := by omega
      have hnamed := (hflags (i + 1) (hlength ▸ hi')).resolve_left fun h => absurd h.2 (Nat.succ_ne_zero i)
      rwa [List.getElem?_eq_getElem hi', Option.some_inj, ← List.getElem_tail] at hnamed

end Events

end SentDeltas

end ModelServer
