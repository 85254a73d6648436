import Mathlib.Data.List.Sort
import Mathlib.Logic.Relation

namespace DependencyOrder

variable {α : Type*}

/-- A list in which all that an element depends on comes behind it. -/
def Ordered (dependencies : α → List α) : List α → Prop
  | [] => True
  | x :: xs => x ∉ xs ∧ (∀ y ∈ dependencies x, y ∈ xs) ∧ Ordered dependencies xs

theorem Ordered.mem_of_mem {dependencies : α → List α} {order : List α} (h : Ordered dependencies order) {x y : α}
    (hx : x ∈ order) (hy : y ∈ dependencies x) : y ∈ order := by
  induction order with
  | nil => cases hx
  | cons z order ih =>
    obtain ⟨_, hbehind, hrest⟩ := h
    rcases List.mem_cons.mp hx with rfl | hx
    · exact List.mem_cons_of_mem _ (hbehind y hy)
    · exact List.mem_cons_of_mem _ (ih hrest hx)

/-- Lists with the same elements that are in the order of a rank are equal. -/
theorem eq_of_perm_of_rank (rank : α → Nat) {xs ys : List α} (hperm : xs.Perm ys)
    (hxs : xs.Pairwise (rank · < rank ·)) (hys : ys.Pairwise (rank · < rank ·)) : xs = ys := by
  apply hperm.eq_of_pairwise _ hxs hys
  intro x y _ _ hlt hgt
  omega

variable [DecidableEq α]

/-- The number of elements from an element on. -/
def rank : List α → α → Nat
  | [], _ => 0
  | x :: xs, y => if y = x then xs.length + 1 else rank xs y

theorem rank_le_length (order : List α) (x : α) : rank order x ≤ order.length := by
  induction order with
  | nil => exact Nat.le_refl _
  | cons y order ih =>
    rw [rank, List.length_cons]
    split
    next => exact Nat.le_refl _
    next => omega

theorem Ordered.rank_lt {dependencies : α → List α} {order : List α} (h : Ordered dependencies order) {x y : α}
    (hx : x ∈ order) (hy : y ∈ dependencies x) : rank order y < rank order x := by
  induction order with
  | nil => cases hx
  | cons z order ih =>
    obtain ⟨hz, hbehind, hrest⟩ := h
    by_cases heq : x = z
    · subst heq
      have hm := hbehind y hy
      have hne : y ≠ x := by
        rintro rfl
        exact hz hm
      have hle := rank_le_length order y
      rw [rank, rank, if_neg hne, if_pos rfl]
      omega
    · have hm : x ∈ order := (List.mem_cons.mp hx).resolve_left heq
      have hlt := ih hrest hm
      have hne : y ≠ z := by
        rintro rfl
        exact hz (hrest.mem_of_mem hm hy)
      rw [rank, rank, if_neg hne, if_neg heq]
      exact hlt

/-- No chain of dependencies leads from an element of an ordered list back to it. -/
theorem Ordered.acyclic {dependencies : α → List α} {order : List α} (h : Ordered dependencies order) {x : α} (hx : x ∈ order) :
    ¬ Relation.TransGen (fun x y => y ∈ dependencies x) x x := by
  have hlt : ∀ y, Relation.TransGen (fun x y => y ∈ dependencies x) x y → y ∈ order ∧ rank order y < rank order x := by
    intro y hchain
    induction hchain with
    | single hy => exact ⟨h.mem_of_mem hx hy, h.rank_lt hx hy⟩
    | tail _ hz ih => exact ⟨h.mem_of_mem ih.1 hz, (h.rank_lt ih.1 hz).trans ih.2⟩
  exact fun hchain => absurd (hlt x hchain).2 (lt_irrefl _)

end DependencyOrder
