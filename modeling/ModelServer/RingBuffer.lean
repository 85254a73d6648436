import Mathlib.Data.List.Rotate
import Mathlib.Data.Nat.ModEq
import Mathlib.Tactic.Common

namespace RingBuffer

variable {α : Type*}

/-- Read as a ring from `front` on, the slots hold `xs` in order; the remaining slots are vacant. -/
def Holds (vacant : α) (slots : List α) (front : Nat) (xs : List α) : Prop :=
  ∃ room, slots.rotate front = xs ++ List.replicate room vacant

theorem rotate_set {slots : List α} {front offset : Nat} (x : α) (h : offset < slots.length) :
    (slots.set ((front + offset) % slots.length) x).rotate front = (slots.rotate front).set offset x := by
  apply List.ext_getElem
  · simp
  intro i hi _
  have hi : i < slots.length := by simpa using hi
  rw [List.getElem_rotate, List.getElem_set, List.getElem_set, List.getElem_rotate]
  simp only [List.length_set]
  by_cases heq : offset = i
  · subst heq
    rw [if_pos (by rw [Nat.add_comm]), if_pos rfl]
  · have hplace : (front + offset) % slots.length ≠ (i + front) % slots.length := by
      intro hmod
      rw [Nat.add_comm i] at hmod
      have hmod := Nat.ModEq.add_left_cancel' front hmod
      rw [Nat.ModEq, Nat.mod_eq_of_lt h, Nat.mod_eq_of_lt hi] at hmod
      exact heq hmod
    rw [if_neg hplace, if_neg heq]

namespace Holds

variable {vacant x : α} {slots xs : List α} {front : Nat}

theorem perm (h : Holds vacant slots front xs) : ∃ room, slots.Perm (xs ++ List.replicate room vacant) := by
  obtain ⟨room, h⟩ := h
  exact ⟨room, h ▸ (List.rotate_perm slots front).symm⟩

theorem length_le (h : Holds vacant slots front xs) : xs.length ≤ slots.length := by
  obtain ⟨room, h⟩ := h
  have hlength := congrArg List.length h
  simp only [List.length_rotate, List.length_append, List.length_replicate] at hlength
  omega

theorem getElem? (h : Holds vacant slots front xs) {offset : Nat} (hoffset : offset < slots.length) :
    slots[(front + offset) % slots.length]? = some (xs[offset]?.getD vacant) := by
  obtain ⟨room, h⟩ := h
  have hlength := congrArg List.length h
  simp only [List.length_rotate, List.length_append, List.length_replicate] at hlength
  rw [Nat.add_comm, ← List.getElem?_rotate hoffset, h]
  by_cases hlt : offset < xs.length
  · rw [List.getElem?_append_left hlt, List.getElem?_eq_getElem hlt, Option.getD_some]
  · rw [List.getElem?_append_right (by omega), List.getElem?_replicate, if_pos (by omega),
      List.getElem?_eq_none (by omega), Option.getD_none]

/-- The front of the ring is its first element, or vacant where the ring is empty. -/
theorem front_eq (h : Holds vacant slots front xs) (hfront : front < slots.length) :
    slots.getD front vacant = xs.headD vacant := by
  have hslot := h.getElem? (by omega : 0 < slots.length)
  rw [Nat.add_zero, Nat.mod_eq_of_lt hfront] at hslot
  rw [List.getD_eq_getElem?_getD, hslot]
  cases xs <;> rfl

/-- Vacating the front slot and going on to the next one takes the first element out. -/
theorem pop (h : Holds vacant slots front (x :: xs)) (hfront : front < slots.length) :
    Holds vacant (slots.set front vacant) ((front + 1) % slots.length) xs := by
  obtain ⟨room, h⟩ := h
  refine ⟨room + 1, ?_⟩
  have hset : (slots.set ((front + 0) % slots.length) vacant).rotate front = (slots.rotate front).set 0 vacant :=
    rotate_set vacant (by omega)
  rw [Nat.add_zero, Nat.mod_eq_of_lt hfront, h, List.cons_append, List.set_cons_zero] at hset
  have hlength : slots.length = (slots.set front vacant).length := List.length_set.symm
  rw [hlength, List.rotate_mod, ← List.rotate_rotate, hset, List.rotate_cons_succ, List.rotate_zero,
    List.append_assoc, ← List.replicate_succ']

/-- Filling the slot after the last element puts one more element in. -/
theorem push (h : Holds vacant slots front xs) (hroom : xs.length < slots.length) (x : α) :
    Holds vacant (slots.set ((front + xs.length) % slots.length) x) front (xs ++ [x]) := by
  obtain ⟨room, h⟩ := h
  have hlength := congrArg List.length h
  simp only [List.length_rotate, List.length_append, List.length_replicate] at hlength
  obtain ⟨room, rfl⟩ : ∃ k, room = k + 1 := ⟨room - 1, by omega⟩
  refine ⟨room, ?_⟩
  rw [rotate_set x hroom, h, List.replicate_succ, List.set_append_right _ _ (Nat.le_refl _), Nat.sub_self,
    List.set_cons_zero, List.append_assoc, List.singleton_append]

end Holds

end RingBuffer
