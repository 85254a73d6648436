import Mathlib.Data.List.Basic
import Mathlib.Data.List.Induction
import Mathlib.Tactic.Common

/-! Things that are held back until a message goes out that may carry them; before any other message they go out alone. -/

namespace PendingTurns

variable {δ α : Type}

/-- What goes out at once: what was held back, and a message of its own. Each has the number of its entry. -/
structure Turn (δ α : Type) where
  carried : List (Nat × δ)
  own : Option (Nat × α)

structure State (δ α : Type) where
  turns : List (Turn δ α)
  pending : List (Nat × δ)

def start : State δ α := ⟨[], []⟩

/-- What is held back goes out alone. -/
def flush (s : State δ α) : State δ α :=
  if s.pending.isEmpty then s else ⟨s.turns ++ [⟨s.pending, none⟩], []⟩

/-- The next entry is held back, or it is a message. -/
def step (absorbs : α → Bool) (s : State δ α) (entry : Nat × (δ ⊕ α)) : State δ α :=
  match entry.2 with
  | .inl d => ⟨s.turns, s.pending ++ [(entry.1, d)]⟩
  | .inr a =>
    if absorbs a then ⟨s.turns ++ [⟨s.pending, some (entry.1, a)⟩], []⟩
    else ⟨(flush s).turns ++ [⟨[], some (entry.1, a)⟩], []⟩

def run (absorbs : α → Bool) (entries : List (Nat × (δ ⊕ α))) : State δ α := flush (entries.foldl (step absorbs) start)

def held (entry : Nat × (δ ⊕ α)) : Option (Nat × δ) := entry.2.getLeft?.map (entry.1, ·)

def owned (entry : Nat × (δ ⊕ α)) : Option (Nat × α) := entry.2.getRight?.map (entry.1, ·)

/-- Nothing is lost or doubled: what was held back goes out once and in order, and so do the messages; only messages that
absorb carry anything; and what is held back goes out before a message behind it that does not absorb. -/
structure Conveyed (absorbs : α → Bool) (entries : List (Nat × (δ ⊕ α))) (turns : List (Turn δ α)) : Prop where
  carried : turns.flatMap (·.carried) = entries.filterMap held
  own : turns.filterMap (·.own) = entries.filterMap owned
  absorbing : ∀ turn ∈ turns, turn.carried ≠ [] → ∀ own, turn.own = some own → absorbs own.2 = true
  precedes : ∀ (p q : Nat) (turn other : Turn δ α), turns[p]? = some turn → turns[q]? = some other →
    ∀ thing ∈ turn.carried, ∀ own, other.own = some own → absorbs own.2 = false → thing.1 < own.1 → p < q

/-- A turn with a message that does not absorb has nothing behind it that was held back before. -/
def Before (absorbs : α → Bool) (turn : Turn δ α) (things : List (Nat × δ)) : Prop :=
  ∀ own, turn.own = some own → absorbs own.2 = false → ∀ thing ∈ things, own.1 < thing.1

structure Sound (absorbs : α → Bool) (entries : List (Nat × (δ ⊕ α))) (s : State δ α) : Prop where
  carried : s.turns.flatMap (·.carried) ++ s.pending = entries.filterMap held
  own : s.turns.filterMap (·.own) = entries.filterMap owned
  absorbing : ∀ turn ∈ s.turns, turn.carried ≠ [] → ∀ own, turn.own = some own → absorbs own.2 = true
  ordered : s.turns.Pairwise fun turn later => Before absorbs turn later.carried
  behind : ∀ turn ∈ s.turns, Before absorbs turn s.pending

variable {absorbs : α → Bool} {entries : List (Nat × (δ ⊕ α))} {s : State δ α}

theorem sound_start : Sound absorbs [] (start : State δ α) where
  carried := rfl
  own := rfl
  absorbing := nofun
  ordered := .nil
  behind := nofun

/-- One more turn, with what is held back. -/
theorem Sound.out (own : Option (Nat × α)) (others : List (Nat × (δ ⊕ α))) (h : Sound absorbs entries s)
    (hheld : others.filterMap held = []) (howned : others.filterMap owned = own.toList)
    (habsorbs : s.pending ≠ [] → ∀ message, own = some message → absorbs message.2 = true) :
    Sound absorbs (entries ++ others) ⟨s.turns ++ [⟨s.pending, own⟩], []⟩ where
  carried := by
    rw [List.filterMap_append, hheld, List.append_nil, List.append_nil, ← h.carried, List.flatMap_append, List.flatMap_singleton]
  own := by
    show List.filterMap Turn.own (s.turns ++ [⟨s.pending, own⟩]) = _
    rw [List.filterMap_append, List.filterMap_append, howned, ← h.own]
    cases own <;> rfl
  absorbing := by
    intro turn hm
    rcases List.mem_append.mp hm with hm | hm
    · exact h.absorbing turn hm
    · rw [List.mem_singleton.mp hm]
      exact habsorbs
  ordered := by
    apply List.pairwise_append.mpr
    refine ⟨h.ordered, List.pairwise_singleton _ _, ?_⟩
    intro turn hm later hlater
    rw [List.mem_singleton.mp hlater]
    exact h.behind turn hm
  behind := by
    intro turn _ own _ _ thing hm
    cases hm

theorem Sound.flush (h : Sound absorbs entries s) : Sound absorbs entries (flush s) ∧ (PendingTurns.flush s).pending = [] := by
  rw [PendingTurns.flush]
  split
  next hempty => exact ⟨h, List.isEmpty_iff.mp hempty⟩
  next =>
    have hout := h.out none [] rfl rfl nofun
    rw [List.append_nil] at hout
    exact ⟨hout, rfl⟩

/-- The next entry, with a number above those so far. -/
theorem Sound.step {entry : Nat × (δ ⊕ α)} (h : Sound absorbs entries s) (hlast : ∀ earlier ∈ entries, earlier.1 < entry.1) :
    Sound absorbs (entries ++ [entry]) (step absorbs s entry) := by
  obtain ⟨number, d | a⟩ := entry
  · refine ⟨?_, ?_, h.absorbing, h.ordered, ?_⟩
    · rw [List.filterMap_append, ← h.carried, List.append_assoc]
      rfl
    · rw [List.filterMap_append, ← h.own]
      exact (List.append_nil _).symm
    · intro turn hturn own hown habsorbs thing hm
      rcases List.mem_append.mp hm with hm | hm
      · exact h.behind turn hturn own hown habsorbs thing hm
      · have hmem : own ∈ entries.filterMap owned := by
          rw [← h.own]
          exact List.mem_filterMap.mpr ⟨turn, hturn, hown⟩
        obtain ⟨earlier, hearlier, howned⟩ := List.mem_filterMap.mp hmem
        obtain ⟨_, -, rfl⟩ := Option.map_eq_some_iff.mp howned
        rw [List.mem_singleton.mp hm]
        exact hlast earlier hearlier
  · simp only [PendingTurns.step]
    split
    next habsorbs =>
      refine h.out (some (number, a)) [(number, .inr a)] rfl rfl ?_
      intro _ message hmessage
      rw [← Option.some.inj hmessage]
      exact habsorbs
    next =>
      obtain ⟨hflush, hempty⟩ := h.flush
      have hout := hflush.out (some (number, a)) [(number, .inr a)] rfl rfl (absurd hempty)
      rw [hempty] at hout
      exact hout

theorem sound_foldl (absorbs : α → Bool) {entries : List (Nat × (δ ⊕ α))} (hordered : entries.Pairwise fun entry later => entry.1 < later.1) :
    Sound absorbs entries (entries.foldl (step absorbs) start) := by
  induction entries using List.reverseRecOn with
  | nil => exact sound_start
  | append_singleton entries entry ih =>
    obtain ⟨hentries, -, hlast⟩ := List.pairwise_append.mp hordered
    rw [List.foldl_append]
    exact (ih hentries).step fun earlier hm => hlast earlier hm entry List.mem_cons_self

/-- The turns of a run convey its entries. -/
theorem run_conveyed {entries : List (Nat × (δ ⊕ α))} (hordered : entries.Pairwise fun entry later => entry.1 < later.1) :
    Conveyed absorbs entries (run absorbs entries).turns := by
  obtain ⟨h, hempty⟩ := (sound_foldl absorbs hordered).flush
  rw [← run] at h hempty
  refine ⟨?_, h.own, h.absorbing, ?_⟩
  · rw [← h.carried, hempty, List.append_nil]
  · intro p q turn other hp hq thing hthing own hown habsorbs hlt
    rcases Nat.lt_trichotomy p q with hpq | rfl | hqp
    · exact hpq
    · obtain rfl := Option.some.inj (hp.symm.trans hq)
      have hcarries := h.absorbing turn (List.mem_of_getElem? hp) (List.ne_nil_of_mem hthing) own hown
      rw [habsorbs] at hcarries
      cases hcarries
    · obtain ⟨hq', hother⟩ := List.getElem?_eq_some_iff.mp hq
      obtain ⟨hp', hturn⟩ := List.getElem?_eq_some_iff.mp hp
      have hbefore := List.pairwise_iff_getElem.mp h.ordered q p hq' hp' hqp
      rw [hother, hturn] at hbefore
      have hgt := hbefore own hown habsorbs thing hthing
      omega

end PendingTurns
