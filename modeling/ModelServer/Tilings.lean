import Mathlib.Algebra.GroupWithZero.Nat
import Mathlib.Data.List.Basic

namespace ModelServer

/-- Pieces, each with its start and its size, that follow one another from `start` to `stop`. -/
inductive Tiles : Nat → List (Nat × Nat) → Nat → Prop
  | nil (start : Nat) : Tiles start [] start
  | cons {start size stop : Nat} {pieces : List (Nat × Nat)} :
      Tiles (start + size) pieces stop → Tiles start ((start, size) :: pieces) stop

namespace Tiles

variable {start stop : Nat} {pieces : List (Nat × Nat)}

theorem sum_eq (h : Tiles start pieces stop) : start + (pieces.map Prod.snd).sum = stop := by
  induction h with
  | nil => rfl
  | cons _ ih =>
    rw [List.map_cons, List.sum_cons, ← Nat.add_assoc]
    exact ih

theorem le (h : Tiles start pieces stop) : start ≤ stop := by
  have hsum := h.sum_eq
  omega

theorem within (h : Tiles start pieces stop) {piece : Nat × Nat} (hm : piece ∈ pieces) :
    start ≤ piece.1 ∧ piece.1 + piece.2 ≤ stop := by
  induction h with
  | nil => cases hm
  | cons hrest ih =>
    have hle := hrest.le
    rcases List.mem_cons.mp hm with rfl | hm
    · exact ⟨Nat.le_refl _, hle⟩
    · have hpiece := ih hm
      omega

theorem disjoint (h : Tiles start pieces stop) : pieces.Pairwise fun piece piece' => piece.1 + piece.2 ≤ piece'.1 := by
  induction h with
  | nil => exact List.Pairwise.nil
  | cons hrest ih =>
    apply List.pairwise_cons.mpr
    refine ⟨?_, ih⟩
    intro piece hm
    exact (hrest.within hm).1

theorem append {middle : Nat} {more : List (Nat × Nat)} (h : Tiles start pieces middle)
    (hmore : Tiles middle more stop) : Tiles start (pieces ++ more) stop := by
  induction h with
  | nil => exact hmore
  | cons _ ih => exact .cons (ih hmore)

/-- What lies under the pieces, put together, is what lies under all of them. -/
theorem flatMap_eq {α : Type} (h : Tiles start pieces stop) (values : List α) :
    (pieces.flatMap fun piece => (values.drop piece.1).take piece.2) = (values.drop start).take (stop - start) := by
  induction h with
  | nil => simp
  | @cons start size stop pieces hrest ih =>
    have hle := hrest.le
    have hsplit : stop - start = size + (stop - (start + size)) := by omega
    rw [List.flatMap_cons, ih, hsplit, List.take_add, List.drop_drop]

theorem whole {α : Type} {values : List α} (h : Tiles 0 pieces values.length) :
    (pieces.flatMap fun piece => (values.drop piece.1).take piece.2) = values := by
  rw [h.flatMap_eq, List.drop_zero, Nat.sub_zero, List.take_length]

end Tiles

theorem tiles_range (count size : Nat) : Tiles 0 ((List.range count).map fun i => (i * size, size)) (count * size) := by
  induction count with
  | zero =>
    rw [Nat.zero_mul]
    exact .nil 0
  | succ count ih =>
    rw [List.range_succ, List.map_append]
    apply ih.append
    rw [Nat.succ_mul]
    exact .cons (.nil _)

/-- Pieces of one size, with the starts of as many equal parts, are these parts. -/
theorem tiles_parts_iff {count size total : Nat} (hcount : 0 < count) :
    Tiles 0 ((List.range count).map fun i => (i * (total / count), size)) total ↔ count * size = total := by
  constructor
  · intro h
    have hsum := h.sum_eq
    rw [List.map_map, Nat.zero_add] at hsum
    rw [← hsum, Function.comp_def, List.map_const', List.length_range, List.sum_replicate_nat]
  · intro h
    rw [← h, Nat.mul_div_cancel_left _ hcount]
    exact tiles_range count size

end ModelServer
