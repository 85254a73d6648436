import Mathlib.Order.Defs.LinearOrder
import Mathlib.Data.List.Sort
import Mathlib.Tactic.Common

namespace SortedRanges

variable {α : Type*} [LinearOrder α]

/-- The common elements of two ranges, found in one pass over both. -/
def setIntersection : List α → List α → List α
  | [], _ => []
  | x :: xs, ys =>
    match ys.dropWhile (· < x) with
    | [] => []
    | y :: rest => if x < y then setIntersection xs (y :: rest) else x :: setIntersection xs rest

/-- The elements of the first range that are not in the second, found in one pass over both. -/
def setDifference : List α → List α → List α
  | [], _ => []
  | x :: xs, ys =>
    match ys.dropWhile (· < x) with
    | [] => x :: xs
    | y :: rest => if x < y then x :: setDifference xs (y :: rest) else setDifference xs rest

/-- The index of the first element that is not below `x`, by halving the range; `fuel` bounds the halvings. -/
def lowerBound (x : α) : Nat → List α → Nat
  | 0, _ => 0
  | fuel + 1, xs =>
    match xs[xs.length / 2]? with
    | none => 0
    | some middle =>
      if middle < x then xs.length / 2 + 1 + lowerBound x fuel (xs.drop (xs.length / 2 + 1))
      else lowerBound x fuel (xs.take (xs.length / 2))

def binarySearch (xs : List α) (x : α) : Bool :=
  match xs[lowerBound x xs.length xs]? with
  | none => false
  | some found => !decide (x < found)

theorem setDifference_sublist (xs ys : List α) : (setDifference xs ys).Sublist xs := by
  induction xs generalizing ys with
  | nil => exact List.Sublist.slnil
  | cons x xs ih =>
    rw [setDifference]
    split
    next => exact List.Sublist.refl _
    next =>
      split
      next => exact (ih _).cons_cons x
      next => exact (ih _).cons x

theorem setIntersection_sublist (xs ys : List α) : (setIntersection xs ys).Sublist xs := by
  induction xs generalizing ys with
  | nil => exact List.Sublist.slnil
  | cons x xs ih =>
    rw [setIntersection]
    split
    next => exact List.nil_sublist _
    next =>
      split
      next => exact (ih _).cons x
      next => exact (ih _).cons_cons x

theorem mem_dropWhile_lt {x z : α} {ys : List α} (h : x ≤ z) : z ∈ ys.dropWhile (· < x) ↔ z ∈ ys := by
  induction ys with
  | nil => rfl
  | cons y ys ih =>
    rw [List.dropWhile_cons]
    split
    next hy =>
      have hzy : z ≠ y := fun heq => absurd (of_decide_eq_true hy) (not_lt.mpr (heq ▸ h))
      rw [ih, List.mem_cons, or_iff_right hzy]
    next => rfl

theorem le_of_dropWhile_eq_cons {x y : α} {ys rest : List α} (h : ys.dropWhile (· < x) = y :: rest) : x ≤ y := by
  have hhead := List.head?_dropWhile_not (p := (· < x)) ys
  rw [h] at hhead
  simpa using hhead

theorem sorted_rest {x y : α} {ys rest : List α} (hys : ys.Pairwise (· ≤ ·))
    (hrest : ys.dropWhile (· < x) = y :: rest) : (y :: rest).Pairwise (· ≤ ·) :=
  hys.sublist (hrest ▸ (List.dropWhile_suffix _).sublist)

theorem filter_rest {x y : α} {xs ys rest : List α} (hxs : ∀ z ∈ xs, x < z)
    (hrest : ys.dropWhile (· < x) = y :: rest) (test : Bool → Bool) :
    xs.filter (fun z => test (decide (z ∈ ys))) = xs.filter (fun z => test (decide (z ∈ y :: rest))) := by
  apply List.filter_congr
  intro z hz
  have hmem : z ∈ y :: rest ↔ z ∈ ys := hrest ▸ mem_dropWhile_lt (hxs z hz).le
  simp only [hmem]

theorem not_mem_of_lt {x y : α} {ys rest : List α} (hys : ys.Pairwise (· ≤ ·))
    (hrest : ys.dropWhile (· < x) = y :: rest) (h : x < y) : x ∉ ys := by
  intro hmem
  have hmem : x ∈ y :: rest := hrest ▸ (mem_dropWhile_lt le_rfl).mpr hmem
  have hle : y ≤ x := by
    obtain heq | hmem := List.mem_cons.mp hmem
    · exact heq ▸ le_rfl
    · exact (List.pairwise_cons.mp (sorted_rest hys hrest)).1 x hmem
  exact absurd h (not_lt.mpr hle)

theorem mem_of_not_lt {x y : α} {ys rest : List α} (hrest : ys.dropWhile (· < x) = y :: rest) (h : ¬ x < y) :
    x = y ∧ x ∈ ys := by
  have heq := le_antisymm (le_of_dropWhile_eq_cons hrest) (not_lt.mp h)
  refine ⟨heq, (mem_dropWhile_lt le_rfl).mp ?_⟩
  rw [hrest, heq]
  exact List.mem_cons_self

/-- The elements after an equal pair are compared with the rest after it. -/
theorem filter_after {x y : α} {xs ys rest : List α} (hxs : ∀ z ∈ xs, x < z)
    (hrest : ys.dropWhile (· < x) = y :: rest) (test : Bool → Bool) (h : ¬ x < y) :
    xs.filter (fun z => test (decide (z ∈ ys))) = xs.filter (fun z => test (decide (z ∈ rest))) := by
  rw [filter_rest hxs hrest test]
  apply List.filter_congr
  intro z hz
  have hne : z ≠ y := (mem_of_not_lt hrest h).1 ▸ (hxs z hz).ne'
  simp only [List.mem_cons, hne, false_or]

theorem setIntersection_eq_filter {xs ys : List α} (hxs : xs.Pairwise (· < ·)) (hys : ys.Pairwise (· ≤ ·)) :
    setIntersection xs ys = xs.filter (· ∈ ys) := by
  induction xs generalizing ys with
  | nil => rfl
  | cons x xs ih =>
    obtain ⟨hx, hxs'⟩ := List.pairwise_cons.mp hxs
    rw [setIntersection]
    split
    next hnil =>
      symm
      apply List.filter_eq_nil_iff.mpr
      intro z hz hmem
      have hxz : x ≤ z := by
        obtain rfl | hz := List.mem_cons.mp hz
        · exact le_rfl
        · exact (hx z hz).le
      have hmem := (mem_dropWhile_lt hxz).mpr (of_decide_eq_true hmem)
      rw [hnil] at hmem
      cases hmem
    next y rest hrest =>
      have hsorted := sorted_rest hys hrest
      split
      next hlt =>
        rw [ih hxs' hsorted, List.filter_cons_of_neg (by simpa using not_mem_of_lt hys hrest hlt)]
        exact (filter_rest hx hrest id).symm
      next hlt =>
        rw [ih hxs' hsorted.of_cons, List.filter_cons_of_pos (by simpa using (mem_of_not_lt hrest hlt).2)]
        exact congrArg (x :: ·) (filter_after hx hrest id hlt).symm

theorem setDifference_eq_filter {xs ys : List α} (hxs : xs.Pairwise (· < ·)) (hys : ys.Pairwise (· ≤ ·)) :
    setDifference xs ys = xs.filter (· ∉ ys) := by
  induction xs generalizing ys with
  | nil => rfl
  | cons x xs ih =>
    obtain ⟨hx, hxs'⟩ := List.pairwise_cons.mp hxs
    rw [setDifference]
    split
    next hnil =>
      symm
      apply List.filter_eq_self.mpr
      intro z hz
      have hxz : x ≤ z := by
        obtain rfl | hz := List.mem_cons.mp hz
        · exact le_rfl
        · exact (hx z hz).le
      have hmem : z ∉ ys := fun hmem => by
        have hmem := (mem_dropWhile_lt hxz).mpr hmem
        rw [hnil] at hmem
        cases hmem
      simpa using hmem
    next y rest hrest =>
      have hsorted := sorted_rest hys hrest
      split
      next hlt =>
        rw [ih hxs' hsorted, List.filter_cons_of_pos (by simpa using not_mem_of_lt hys hrest hlt)]
        simpa using (filter_rest hx hrest not).symm
      next hlt =>
        rw [ih hxs' hsorted.of_cons, List.filter_cons_of_neg (by simpa using (mem_of_not_lt hrest hlt).2)]
        simpa using (filter_after hx hrest not hlt).symm

theorem count_dropWhile_lt {x z : α} {ys : List α} (h : x ≤ z) : (ys.dropWhile (· < x)).count z = ys.count z := by
  induction ys with
  | nil => rfl
  | cons y ys ih =>
    rw [List.dropWhile_cons]
    split
    next hy =>
      have hne : y ≠ z := fun heq => absurd (of_decide_eq_true hy) (not_lt.mpr (heq ▸ h))
      rw [ih, List.count_cons_of_ne hne]
    next => rfl

theorem notMem_of_lt_head {x z : α} {xs : List α} (hxs : (x :: xs).Pairwise (· ≤ ·)) (hz : z < x) : z ∉ x :: xs := by
  intro hmem
  rcases List.mem_cons.mp hmem with heq | hmem
  · exact hz.ne heq
  · exact absurd hz (not_lt.mpr ((List.pairwise_cons.mp hxs).1 z hmem))

/-- Each element of the second range takes one of its kind out of the first. -/
theorem count_setDifference {xs ys : List α} (hxs : xs.Pairwise (· ≤ ·)) (hys : ys.Pairwise (· ≤ ·)) (z : α) :
    (setDifference xs ys).count z = xs.count z - ys.count z := by
  induction xs generalizing ys with
  | nil => simp [setDifference]
  | cons x xs ih =>
    have hxs' := hxs.of_cons
    by_cases hzx : z < x
    · have hnot := notMem_of_lt_head hxs hzx
      have hnone : z ∉ setDifference (x :: xs) ys := fun hmem => hnot ((setDifference_sublist (x :: xs) ys).mem hmem)
      rw [List.count_eq_zero_of_not_mem hnone, List.count_eq_zero_of_not_mem hnot, Nat.zero_sub]
    · have hle : x ≤ z := not_lt.mp hzx
      have hdrop : (ys.dropWhile (· < x)).count z = ys.count z := count_dropWhile_lt hle
      rw [← hdrop, setDifference]
      split
      next hnil => rw [hnil, List.count_nil, Nat.sub_zero]
      next y rest hrest =>
        have hsorted := sorted_rest hys hrest
        rw [hrest]
        split
        next hlt =>
          by_cases heq : x = z
          · -- the first element is below the whole rest of the second range
            have hnot : (y :: rest).count z = 0 := List.count_eq_zero_of_not_mem (notMem_of_lt_head hsorted (heq ▸ hlt))
            have hlater := ih hxs' hsorted
            rw [hnot] at hlater ⊢
            rw [heq, List.count_cons_self, List.count_cons_self, hlater]
            omega
          · rw [List.count_cons_of_ne heq, List.count_cons_of_ne heq]
            exact ih hxs' hsorted
        next hlt =>
          have heq : x = y := (mem_of_not_lt hrest hlt).1
          rw [ih hxs' hsorted.of_cons, heq]
          by_cases hz : y = z
          · rw [hz, List.count_cons_self, List.count_cons_self]
            omega
          · rw [List.count_cons_of_ne hz, List.count_cons_of_ne hz]

/-- The lower bound of a sorted range splits it into the elements below `x` and the others. -/
theorem lowerBound_spec {x : α} {fuel : Nat} {xs : List α} (hfuel : xs.length ≤ fuel) (hxs : xs.Pairwise (· ≤ ·)) :
    ∃ below above, xs = below ++ above ∧ below.length = lowerBound x fuel xs ∧
      (∀ y ∈ below, y < x) ∧ ∀ y ∈ above, x ≤ y := by
  induction fuel generalizing xs with
  | zero =>
    have hnil : xs = [] := List.length_eq_zero_iff.mp (by omega)
    exact ⟨[], [], hnil, rfl, by simp, by simp⟩
  | succ fuel ih =>
    rw [lowerBound]
    split
    next hnone =>
      have hnil : xs = [] := List.length_eq_zero_iff.mp (by have := List.getElem?_eq_none_iff.mp hnone; omega)
      exact ⟨[], [], hnil, rfl, by simp, by simp⟩
    next middle hmiddle =>
      obtain ⟨hlt, hget⟩ := List.getElem?_eq_some_iff.mp hmiddle
      have hsplit : xs = xs.take (xs.length / 2) ++ middle :: xs.drop (xs.length / 2 + 1) := by
        rw [← hget, List.getElem_cons_drop, List.take_append_drop]
      have hsorted := hxs
      rw [hsplit, List.pairwise_append, List.pairwise_cons] at hsorted
      obtain ⟨hleft, ⟨hmiddle, hright⟩, hcross⟩ := hsorted
      split
      next hbelow =>
        obtain ⟨below, above, heq, hlength, hlow, hhigh⟩ := ih (by rw [List.length_drop]; omega) hright
        refine ⟨xs.take (xs.length / 2) ++ middle :: below, above, ?_, ?_, ?_, hhigh⟩
        · rw [List.append_assoc, List.cons_append, ← heq]
          exact hsplit
        · rw [← hlength, List.length_append, List.length_cons, List.length_take]
          omega
        · intro y hy
          obtain hy | hy := List.mem_append.mp hy
          · exact (hcross y hy middle List.mem_cons_self).trans_lt hbelow
          · obtain hy | hy := List.mem_cons.mp hy
            · exact hy ▸ hbelow
            · exact hlow y hy
      next hbelow =>
        obtain ⟨below, above, heq, hlength, hlow, hhigh⟩ := ih (by rw [List.length_take]; omega) hleft
        refine ⟨below, above ++ middle :: xs.drop (xs.length / 2 + 1), ?_, hlength, hlow, ?_⟩
        · rw [← List.append_assoc, ← heq]
          exact hsplit
        · intro y hy
          obtain hy | hy := List.mem_append.mp hy
          · exact hhigh y hy
          · have hxm : x ≤ middle := not_lt.mp hbelow
            obtain hy | hy := List.mem_cons.mp hy
            · exact hy ▸ hxm
            · exact hxm.trans (hmiddle y hy)

theorem binarySearch_iff {x : α} {xs : List α} (hxs : xs.Pairwise (· ≤ ·)) : binarySearch xs x = true ↔ x ∈ xs := by
  obtain ⟨below, above, heq, hlength, hlow, hhigh⟩ := lowerBound_spec (x := x) le_rfl hxs
  have hget : xs[lowerBound x xs.length xs]? = above.head? := by
    conv_lhs => rw [← hlength]
    rw [heq, List.getElem?_append_right le_rfl, Nat.sub_self, List.head?_eq_getElem?]
  have hbelow : x ∉ below := fun hmem => (hlow x hmem).false
  rw [binarySearch, hget, heq, List.mem_append, or_iff_right hbelow]
  cases above with
  | nil => simp
  | cons y above =>
    have hxy := hhigh y List.mem_cons_self
    constructor
    · intro hfound
      have hnot : ¬ x < y := by simpa using hfound
      exact le_antisymm hxy (not_lt.mp hnot) ▸ List.mem_cons_self
    · intro hmem
      have hyx : y ≤ x := by
        obtain hmem | hmem := List.mem_cons.mp hmem
        · exact hmem ▸ le_rfl
        · have hsorted := (List.pairwise_append.mp (heq ▸ hxs)).2.1
          exact (List.pairwise_cons.mp hsorted).1 x hmem
      simpa using hyx

/-- The first `n` elements of a descending range are those with fewer than `n` elements above them. -/
theorem mem_take_iff {xs : List α} (hxs : xs.Pairwise (· > ·)) {n : Nat} {x : α} :
    x ∈ xs.take n ↔ x ∈ xs ∧ (xs.filter (x < ·)).length < n := by
  induction xs generalizing n with
  | nil => simp
  | cons y xs ih =>
    obtain ⟨hy, hxs⟩ := List.pairwise_cons.mp hxs
    cases n with
    | zero => simp
    | succ n =>
      rw [List.take_succ_cons, List.mem_cons, ih hxs, List.mem_cons]
      by_cases heq : x = y
      · have hnone : (y :: xs).filter (x < ·) = [] := by
          apply List.filter_eq_nil_iff.mpr
          intro z hz
          obtain rfl | hz := List.mem_cons.mp hz
          · simp [heq]
          · simpa [heq] using (hy z hz).le
        simp [heq ▸ hnone, heq]
      · by_cases hmem : x ∈ xs
        · rw [List.filter_cons_of_pos (by simpa using hy x hmem), List.length_cons]
          simp [heq, hmem]
        · simp [heq, hmem]

end SortedRanges
