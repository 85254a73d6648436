import Mathlib.Data.List.Basic
import Mathlib.Data.List.Flatten
import Mathlib.Data.List.Pairwise

namespace ModelServer.Chunking

variable {α : Type}

section Padding

/-- A list at the beginning of a row of a given width, the rest of which is filled. -/
def padTo (width : Nat) (fill : α) (xs : List α) : List α := xs ++ List.replicate (width - xs.length) fill

theorem padTo_length {width : Nat} {fill : α} {xs : List α} (hfits : xs.length ≤ width) :
    (padTo width fill xs).length = width := by
  rw [padTo, List.length_append, List.length_replicate]
  omega

/-- A mask has one length only. -/
theorem padTo_replicate_inj {width n m : Nat} {a b : α} (hne : a ≠ b)
    (h : padTo width b (List.replicate n a) = padTo width b (List.replicate m a)) : n = m := by
  classical
  have hcount := congrArg (List.count a) h
  simpa [padTo, List.count_replicate, hne.symm] using hcount

variable [BEq α] [LawfulBEq α]

/-- The search for the filling finds where the list ends, when the filling is not one of its elements. -/
theorem idxOf_padTo {width : Nat} {fill : α} {xs : List α} (h : fill ∉ xs) :
    (padTo width fill xs).idxOf fill = xs.length := by
  rw [padTo, List.idxOf_append, if_neg h]
  cases width - xs.length with
  | zero => simp
  | succ n => simp [List.replicate_succ]

theorem notMem_take_idxOf (a : α) (xs : List α) : a ∉ xs.take (xs.idxOf a) := by
  intro h
  exact Nat.lt_irrefl _ ((List.mem_take_iff_idxOf_lt (List.mem_of_mem_take h)).mp h)

end Padding

section Slices

/-- The slices of a list that begin at the multiples of `size`, as many as asked for. -/
def slices (size count : Nat) (xs : List α) : List (List α) :=
  (List.range count).map fun j => (xs.drop (j * size)).take size

theorem slices_flatten (size count : Nat) (xs : List α) : (slices size count xs).flatten = xs.take (count * size) := by
  induction count with
  | zero => simp [slices]
  | succ count ih =>
    rw [slices, List.range_succ, List.map_append, List.flatten_append, ← slices, ih, Nat.succ_mul, List.take_add]
    simp

theorem le_roundUp_mul {length size : Nat} (h : 0 < size) : length ≤ (length + size - 1) / size * size := by
  have hdiv := Nat.div_add_mod (length + size - 1) size
  have hmod := Nat.mod_lt (length + size - 1) h
  rw [Nat.mul_comm] at hdiv
  omega

theorem mul_lt_of_lt_roundUp {length size j : Nat} (h : 0 < size) (hj : j < (length + size - 1) / size) : j * size < length := by
  have hmul := (Nat.le_div_iff_mul_le h).mp hj
  rw [Nat.succ_mul] at hmul
  omega

end Slices

section Labels

/-- A label for each element of each group: the number of its group, counted from `first`. -/
def labels (first : Nat) : List (List α) → List Nat
  | [] => []
  | group :: groups => List.replicate group.length first ++ labels (first + 1) groups

/-- The elements with a label. -/
def labelled (label : Nat) (marks : List Nat) (xs : List α) : List α :=
  ((marks.zip xs).filter fun p => p.1 == label).map Prod.snd

theorem labels_length (first : Nat) (groups : List (List α)) : (labels first groups).length = groups.flatten.length := by
  induction groups generalizing first with
  | nil => rfl
  | cons group groups ih => rw [labels, List.length_append, List.length_replicate, ih, List.flatten_cons, List.length_append]

theorem le_of_mem_labels {first label : Nat} {groups : List (List α)} (h : label ∈ labels first groups) :
    first ≤ label ∧ label < first + groups.length := by
  induction groups generalizing first with
  | nil => cases h
  | cons group groups ih =>
    rw [labels, List.mem_append] at h
    rw [List.length_cons]
    cases h with
    | inl h =>
      have heq := List.eq_of_mem_replicate h
      omega
    | inr h =>
      have hrest := ih h
      omega

theorem labels_pairwise (first : Nat) (groups : List (List α)) : (labels first groups).Pairwise (· ≤ ·) := by
  induction groups generalizing first with
  | nil => exact List.Pairwise.nil
  | cons group groups ih =>
    refine List.pairwise_append.mpr ⟨List.pairwise_replicate.mpr (.inr (Nat.le_refl first)), ih (first + 1), ?_⟩
    intro a ha b hb
    have heq := List.eq_of_mem_replicate ha
    have hle := (le_of_mem_labels hb).1
    omega

theorem mem_labels (first : Nat) {i : Nat} {groups : List (List α)} (hi : i < groups.length) (hne : groups[i] ≠ []) :
    first + i ∈ labels first groups := by
  induction groups generalizing first i with
  | nil => exact absurd hi (Nat.not_lt_zero i)
  | cons group groups ih =>
    rw [labels, List.mem_append]
    cases i with
    | zero => exact .inl (List.mem_replicate.mpr ⟨by simpa using hne, rfl⟩)
    | succ i =>
      have hrest := ih (first + 1) (Nat.lt_of_succ_lt_succ hi) hne
      exact .inr (by rwa [show first + (i + 1) = first + 1 + i by omega])

theorem labelled_append (label : Nat) {marks : List Nat} (marks' : List Nat) {xs : List α} (xs' : List α) (h : marks.length = xs.length) :
    labelled label (marks ++ marks') (xs ++ xs') = labelled label marks xs ++ labelled label marks' xs' := by
  rw [labelled, List.zip_append h, List.filter_append, List.map_append]
  rfl

theorem labelled_replicate (label mark : Nat) (xs : List α) :
    labelled label (List.replicate xs.length mark) xs = if mark = label then xs else [] := by
  induction xs with
  | nil => simp [labelled]
  | cons x xs ih =>
    show labelled label ([mark] ++ List.replicate xs.length mark) ([x] ++ xs) = _
    rw [labelled_append label (List.replicate xs.length mark) xs (by rw [List.length_singleton, List.length_singleton]), ih]
    by_cases h : mark = label <;> simp [labelled, h]

theorem labelled_of_notMem {label : Nat} {marks : List Nat} {xs : List α} (h : label ∉ marks) : labelled label marks xs = [] := by
  rw [labelled, List.map_eq_nil_iff, List.filter_eq_nil_iff]
  intro p hp heq
  exact h (beq_iff_eq.mp heq ▸ (List.of_mem_zip hp).1)

/-- The labels give the groups back. -/
theorem labelled_labels (first : Nat) {i : Nat} {groups : List (List α)} (hi : i < groups.length) :
    labelled (first + i) (labels first groups) groups.flatten = groups[i] := by
  induction groups generalizing first i with
  | nil => exact absurd hi (Nat.not_lt_zero i)
  | cons group groups ih =>
    rw [labels, List.flatten_cons, labelled_append _ _ _ List.length_replicate, labelled_replicate]
    cases i with
    | zero =>
      rw [if_pos (by omega), labelled_of_notMem, List.append_nil]
      · rfl
      · intro h
        have hle := (le_of_mem_labels h).1
        omega
    | succ i =>
      rw [if_neg (by omega), List.nil_append, show first + (i + 1) = first + 1 + i by omega]
      exact ih (first + 1) (Nat.lt_of_succ_lt_succ hi)

end Labels

end ModelServer.Chunking
