import Mathlib.Order.Defs.LinearOrder
import Mathlib.Data.List.Perm.Subperm
import Mathlib.Data.List.Sort
import Mathlib.Tactic.Common

/-- A map from ordered keys, with its entries in the order of their keys. -/
structure OrderedMap (κ : Type*) (α : Type*) [LT κ] where
  entries : List (κ × α)
  ordered : (entries.map Prod.fst).Pairwise (· < ·)

namespace OrderedMap

variable {κ α : Type*} [LinearOrder κ]

def insertNew (k : κ) (a : α) : List (κ × α) → List (κ × α)
  | [] => [(k, a)]
  | entry :: rest =>
    if k < entry.1 then (k, a) :: entry :: rest
    else if entry.1 < k then entry :: insertNew k a rest
    else entry :: rest

theorem mem_keys_insertNew {k k' : κ} {a : α} {entries : List (κ × α)} :
    k' ∈ (insertNew k a entries).map Prod.fst ↔ k' = k ∨ k' ∈ entries.map Prod.fst := by
  induction entries with
  | nil => simp [insertNew]
  | cons entry rest ih =>
    simp only [insertNew]
    split
    next => simp
    next hnlt =>
      split
      next hlt =>
        rw [List.map_cons, List.mem_cons, ih, List.map_cons, List.mem_cons]
        exact or_left_comm
      next hngt =>
        have heq : k = entry.1 := le_antisymm (not_lt.mp hngt) (not_lt.mp hnlt)
        rw [heq, List.map_cons, List.mem_cons]
        exact ⟨.inr, fun h => h.elim .inl id⟩

theorem ordered_insertNew {k : κ} {a : α} {entries : List (κ × α)}
    (h : (entries.map Prod.fst).Pairwise (· < ·)) : ((insertNew k a entries).map Prod.fst).Pairwise (· < ·) := by
  induction entries with
  | nil => simp [insertNew]
  | cons entry rest ih =>
    obtain ⟨hfirst, hrest⟩ := List.pairwise_cons.mp h
    simp only [insertNew]
    split
    next hlt =>
      refine List.pairwise_cons.mpr ⟨?_, h⟩
      intro k' hk'
      obtain rfl | hk' := List.mem_cons.mp hk'
      · exact hlt
      · exact hlt.trans (hfirst k' hk')
    next hnlt =>
      split
      next hgt =>
        refine List.pairwise_cons.mpr ⟨?_, ih hrest⟩
        intro k' hk'
        obtain rfl | hk' := mem_keys_insertNew.mp hk'
        · exact hgt
        · exact hfirst k' hk'
      next => exact h

def empty : OrderedMap κ α := ⟨[], .nil⟩

def keys (m : OrderedMap κ α) : List κ := m.entries.map Prod.fst

/-- The value of a key, if it has one. -/
def find? (m : OrderedMap κ α) (k : κ) : Option α := (m.entries.find? (·.1 = k)).map Prod.snd

/-- A new entry for the key; an entry it already has is kept. -/
def emplace (m : OrderedMap κ α) (k : κ) (a : α) : OrderedMap κ α :=
  ⟨insertNew k a m.entries, ordered_insertNew m.ordered⟩

/-- The value of the key is replaced, if it has one. -/
def modify (m : OrderedMap κ α) (k : κ) (f : α → α) : OrderedMap κ α where
  entries := m.entries.map fun entry => if entry.1 = k then (entry.1, f entry.2) else entry
  ordered := by
    rw [List.map_map]
    convert m.ordered using 2
    funext entry
    dsimp only [Function.comp]
    split <;> rfl

/-- The value of the key is set, whether it has one or not. -/
def assign (m : OrderedMap κ α) (k : κ) (a : α) : OrderedMap κ α := (m.emplace k a).modify k fun _ => a

variable {m : OrderedMap κ α} {k k' : κ} {a : α}

theorem keys_ordered (m : OrderedMap κ α) : m.keys.Pairwise (· < ·) := m.ordered

theorem mem_entries_iff : (k, a) ∈ m.entries ↔ m.find? k = some a := by
  obtain ⟨entries, hordered⟩ := m
  induction entries with
  | nil => simp [find?]
  | cons entry rest ih =>
    obtain ⟨hfirst, hrest⟩ := List.pairwise_cons.mp hordered
    have ih : (k, a) ∈ rest ↔ (rest.find? (·.1 = k)).map Prod.snd = some a := ih hrest
    simp only [find?, List.find?_cons]
    split
    next heq =>
      have heq : entry.1 = k := of_decide_eq_true heq
      have hnot : (k, a) ∉ rest := fun hmem => by
        have hlt := hfirst k (List.mem_map.mpr ⟨_, hmem, rfl⟩)
        exact hlt.ne heq
      rw [List.mem_cons, or_iff_left hnot, Option.map_some, Option.some_inj, ← heq]
      exact ⟨fun h => congrArg Prod.snd h.symm, fun h => h ▸ rfl⟩
    next hne =>
      have hne : entry.1 ≠ k := of_decide_eq_false hne
      rw [List.mem_cons, or_iff_right fun h => hne (congrArg Prod.fst h).symm, ih]

theorem find?_eq_none_iff : m.find? k = none ↔ k ∉ m.keys := by
  rw [find?, Option.map_eq_none_iff, List.find?_eq_none]
  constructor
  · intro h hmem
    obtain ⟨entry, hentry, heq⟩ := List.mem_map.mp hmem
    exact h entry hentry (decide_eq_true heq)
  · intro h entry hentry heq
    exact h (List.mem_map.mpr ⟨entry, hentry, of_decide_eq_true heq⟩)

theorem mem_keys_iff : k ∈ m.keys ↔ ∃ a, m.find? k = some a := by
  rw [← not_iff_not, ← find?_eq_none_iff, Option.eq_none_iff_forall_ne_some, not_exists]

theorem mem_keys_emplace : k' ∈ (m.emplace k a).keys ↔ k' = k ∨ k' ∈ m.keys :=
  mem_keys_insertNew

theorem mem_insertNew {entry : κ × α} {entries : List (κ × α)} (h : (entries.map Prod.fst).Pairwise (· < ·)) :
    entry ∈ insertNew k a entries ↔ entry ∈ entries ∨ entry = (k, a) ∧ k ∉ entries.map Prod.fst := by
  induction entries with
  | nil => simp [insertNew]
  | cons first rest ih =>
    obtain ⟨hfirst, hrest⟩ := List.pairwise_cons.mp h
    simp only [insertNew]
    split
    next hlt =>
      have hnot : k ∉ (first :: rest).map Prod.fst := by
        intro hmem
        obtain rfl | hmem := List.mem_cons.mp hmem
        · exact hlt.false
        · exact (hlt.trans (hfirst k hmem)).false
      rw [List.mem_cons, and_iff_left hnot, or_comm]
    next hnlt =>
      split
      next hgt =>
        rw [List.mem_cons, ih hrest, List.mem_cons, List.map_cons, List.mem_cons, not_or, and_iff_right hgt.ne', or_assoc]
      next hngt =>
        have heq : k = first.1 := le_antisymm (not_lt.mp hngt) (not_lt.mp hnlt)
        refine ⟨.inl, fun h => h.resolve_right fun h => h.2 ?_⟩
        rw [heq]
        exact List.mem_cons_self

/-- Only a key that is not in the map yet gets the value. -/
theorem find?_emplace : (m.emplace k a).find? k' = if k' = k ∧ k ∉ m.keys then some a else m.find? k' := by
  apply Option.ext
  intro b
  rw [← mem_entries_iff, emplace, mem_insertNew m.ordered, mem_entries_iff]
  change _ ∨ _ ∧ k ∉ m.keys ↔ _
  split
  next h =>
    obtain ⟨rfl, hnew⟩ := h
    rw [find?_eq_none_iff.mpr hnew, Prod.mk.injEq, Option.some_inj]
    constructor
    · intro h
      obtain h | ⟨⟨-, h⟩, -⟩ := h
      · cases h
      · exact h.symm
    · intro h
      exact .inr ⟨⟨rfl, h.symm⟩, hnew⟩
  next h =>
    refine or_iff_left fun hnew => h ⟨?_, hnew.2⟩
    exact congrArg Prod.fst hnew.1

theorem find?_modify {f : α → α} :
    (m.modify k f).find? k' = if k' = k then (m.find? k').map f else m.find? k' := by
  have hkeys : ((fun entry : κ × α => decide (entry.1 = k')) ∘
      fun entry => if entry.1 = k then (entry.1, f entry.2) else entry) = fun entry => decide (entry.1 = k') := by
    funext entry
    dsimp only [Function.comp]
    split <;> rfl
  rw [find?, modify, List.find?_map, hkeys, find?]
  cases hfind : m.entries.find? (fun entry => decide (entry.1 = k')) with
  | none => simp
  | some entry =>
    have heq : entry.1 = k' := by simpa using List.find?_some hfind
    rw [Option.map_some, Option.map_some, Option.map_some]
    rw [heq]
    split <;> rfl

theorem keys_modify {f : α → α} : (m.modify k f).keys = m.keys := by
  rw [keys, modify, List.map_map]
  congr 1
  funext entry
  dsimp only [Function.comp]
  split <;> rfl

theorem find?_assign : (m.assign k a).find? k' = if k' = k then some a else m.find? k' := by
  rw [assign, find?_modify]
  split
  next heq =>
    have hmem : k' ∈ (m.emplace k a).keys := mem_keys_emplace.mpr (.inl heq)
    obtain ⟨b, hb⟩ := mem_keys_iff.mp hmem
    rw [hb, Option.map_some]
  next hne => rw [find?_emplace, if_neg fun h => hne h.1]

theorem eq_of_entries {m m' : OrderedMap κ α} (h : m.entries = m'.entries) : m = m' := by
  cases m
  cases m'
  cases h
  rfl

instance [DecidableEq α] : DecidableEq (OrderedMap κ α) := fun m m' =>
  decidable_of_iff (m.entries = m'.entries) ⟨eq_of_entries, fun h => h ▸ rfl⟩

/-- A map of as many entries that has all those of another one is that one. -/
theorem eq_of_find? {m m' : OrderedMap κ α} (hlength : m.entries.length = m'.entries.length)
    (h : ∀ entry ∈ m.entries, m'.find? entry.1 = some entry.2) : m = m' := by
  have hnodup : m.entries.Nodup := List.Nodup.of_map Prod.fst (m.ordered.imp fun hlt => hlt.ne)
  have hsubset : m.entries ⊆ m'.entries := fun entry hm => mem_entries_iff.mpr (h entry hm)
  have hperm : m.entries.Perm m'.entries :=
    (List.subperm_of_subset hnodup hsubset).perm_of_length_le (Nat.le_of_eq hlength.symm)
  have hsorted : ∀ m : OrderedMap κ α, m.entries.Pairwise fun entry entry' => entry.1 < entry'.1 :=
    fun m => List.pairwise_map.mp m.ordered
  refine eq_of_entries (hperm.eq_of_pairwise ?_ (hsorted m) (hsorted m'))
  intro entry entry' _ _ hlt hgt
  exact absurd hlt hgt.asymm

end OrderedMap
