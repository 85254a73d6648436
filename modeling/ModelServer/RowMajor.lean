import Mathlib.Algebra.BigOperators.Group.List.Basic
import Mathlib.Data.List.Nodup
import Mathlib.Data.List.Range
import Mathlib.Algebra.Order.BigOperators.GroupWithZero.List
import Mathlib.Tactic.Ring

namespace RowMajor

/-- The place of an index in an array with these sizes; the last index runs fastest. -/
def offset : List Nat → List Nat → Nat
  | _ :: sizes, i :: index => i * sizes.prod + offset sizes index
  | _, _ => 0

/-- All indexes, in the order of their places. -/
def indexes : List Nat → List (List Nat)
  | [] => [[]]
  | size :: sizes => (List.range size).flatMap fun i => (indexes sizes).map (i :: ·)

theorem range_mul (m n : Nat) :
    List.range (m * n) = (List.range m).flatMap fun i => (List.range n).map (i * n + ·) := by
  induction m with
  | zero => simp
  | succ m ih =>
    rw [List.range_succ, List.flatMap_append, ← ih, Nat.succ_mul, List.range_add]
    simp

theorem indexes_offset (sizes : List Nat) : (indexes sizes).map (offset sizes) = List.range sizes.prod := by
  induction sizes with
  | nil => rfl
  | cons size sizes ih =>
    have hrow : ∀ i, ((indexes sizes).map (i :: ·)).map (offset (size :: sizes)) =
        (List.range sizes.prod).map (i * sizes.prod + ·) := by
      intro i
      rw [← ih, List.map_map, List.map_map]
      rfl
    rw [indexes, List.map_flatMap, List.prod_cons, range_mul]
    simp only [hrow]

theorem mem_indexes {sizes index : List Nat} (h : index ∈ indexes sizes) :
    List.Forall₂ (· < ·) index sizes := by
  induction sizes generalizing index with
  | nil =>
    rw [List.mem_singleton.mp h]
    exact .nil
  | cons size sizes ih =>
    obtain ⟨i, hi, hm⟩ := List.mem_flatMap.mp h
    obtain ⟨rest, hrest, rfl⟩ := List.mem_map.mp hm
    exact .cons (List.mem_range.mp hi) (ih hrest)

theorem mem_indexes_of_lt {sizes index : List Nat} (h : List.Forall₂ (· < ·) index sizes) : index ∈ indexes sizes := by
  induction h with
  | nil => exact List.mem_singleton.mpr rfl
  | cons hi _ ih =>
    apply List.mem_flatMap.mpr
    exact ⟨_, List.mem_range.mpr hi, List.mem_map.mpr ⟨_, ih, rfl⟩⟩

theorem length_indexes (sizes : List Nat) : (indexes sizes).length = sizes.prod := by
  have hlength := congrArg List.length (indexes_offset sizes)
  rwa [List.length_map, List.length_range] at hlength

theorem nodup_indexes (sizes : List Nat) : (indexes sizes).Nodup := by
  apply List.Nodup.of_map (offset sizes)
  rw [indexes_offset]
  exact List.nodup_range

theorem offset_lt {sizes index : List Nat} (h : List.Forall₂ (· < ·) index sizes) :
    offset sizes index < sizes.prod := by
  induction h with
  | nil => exact Nat.one_pos
  | @cons i size index sizes hi _ ih =>
    have hle : (i + 1) * sizes.prod ≤ size * sizes.prod := Nat.mul_le_mul_right _ hi
    rw [Nat.succ_mul] at hle
    rw [List.prod_cons]
    show i * sizes.prod + offset sizes index < size * sizes.prod
    omega

section Accumulate

/-- Numbering from the last index on, in machine words: the number so far and the factor of the next index. -/
def accumulate (word : Nat) : Nat × Nat → Nat × Nat → Nat × Nat
  | (number, factor), (i, size) => ((number + factor * i) % word, factor * size % word)

theorem accumulate_reverse (word : Nat) (hword : 1 < word) {index sizes : List Nat}
    (hlength : index.length = sizes.length) :
    (index.zip sizes).reverse.foldl (accumulate word) (0, 1) =
      (offset sizes index % word, sizes.prod % word) := by
  rw [List.foldl_reverse]
  induction sizes generalizing index with
  | nil =>
    rw [List.length_eq_zero_iff.mp hlength]
    simp [offset, Nat.mod_eq_of_lt hword]
  | cons size sizes ih =>
    cases index with
    | nil => cases hlength
    | cons i index =>
      rw [List.zip_cons_cons, List.foldr_cons, ih (Nat.succ.inj hlength)]
      simp only [accumulate, offset, List.prod_cons, Prod.mk.injEq]
      constructor
      · rw [Nat.add_comm (i * sizes.prod), Nat.mul_comm i]
        simp [Nat.add_mod, Nat.mul_mod]
      · rw [Nat.mul_comm size]
        simp [Nat.mul_mod]

end Accumulate

section Blocks

variable {α : Type*}

/-- The block of `n` elements at place `i`. -/
def block (n i : Nat) (data : List α) : List α := (data.drop (i * n)).take n

theorem length_block {n m i : Nat} {data : List α} (hlength : data.length = m * n) (hi : i < m) :
    (block n i data).length = n := by
  have hle : (i + 1) * n ≤ m * n := Nat.mul_le_mul_right n hi
  rw [Nat.succ_mul] at hle
  rw [block, List.length_take, List.length_drop]
  omega

theorem getElem?_block {n i k : Nat} {data : List α} (hk : k < n) : (block n i data)[k]? = data[i * n + k]? := by
  rw [block, List.getElem?_take_of_lt hk, List.getElem?_drop]

/-- A block of a block. -/
theorem block_block {n m i j : Nat} (hj : j < m) (data : List α) :
    block n j (block (m * n) i data) = block n (i * m + j) data := by
  have hle : (j + 1) * n ≤ m * n := Nat.mul_le_mul_right n hj
  rw [Nat.succ_mul] at hle
  unfold block
  rw [List.drop_take, List.drop_drop, List.take_take, Nat.min_eq_left (by omega), Nat.add_mul, Nat.mul_assoc]

/-- `data` is copied to the place `i` of a buffer. -/
def overwrite (buffer : List α) (i : Nat) (data : List α) : List α :=
  buffer.take i ++ data ++ buffer.drop (i + data.length)

theorem length_overwrite {buffer data : List α} {i : Nat} (h : i + data.length ≤ buffer.length) :
    (overwrite buffer i data).length = buffer.length := by
  simp only [overwrite, List.length_append, List.length_take, List.length_drop]
  omega

theorem getElem?_overwrite {buffer data : List α} {i : Nat} (h : i + data.length ≤ buffer.length) (k : Nat) :
    (overwrite buffer i data)[k]? =
      if i ≤ k ∧ k < i + data.length then data[k - i]? else buffer[k]? := by
  have htake : (buffer.take i).length = i := by
    rw [List.length_take]
    omega
  unfold overwrite
  split
  next hk =>
    rw [List.append_assoc, List.getElem?_append_right (by omega), htake, List.getElem?_append_left (by omega)]
  next hk =>
    by_cases hlt : k < i
    · rw [List.append_assoc, List.getElem?_append_left (by omega), List.getElem?_take_of_lt hlt]
    · rw [List.getElem?_append_right (by simp only [List.length_append]; omega), List.getElem?_drop]
      congr 1
      simp only [List.length_append]
      omega

/-- Blocks that are copied to their places, in any order. -/
theorem getElem?_overwrites {m n : Nat} {blocks : Nat → List α} (hblocks : ∀ i < m, (blocks i).length = n)
    {order : List Nat} (horder : ∀ i ∈ order, i < m) {buffer : List α} (hbuffer : buffer.length = m * n) :
    (order.foldl (fun b i => overwrite b (i * n) (blocks i)) buffer).length = m * n ∧
      ∀ k < m * n, (order.foldl (fun b i => overwrite b (i * n) (blocks i)) buffer)[k]? =
        if k / n ∈ order then (blocks (k / n))[k % n]? else buffer[k]? := by
  induction order generalizing buffer with
  | nil => exact ⟨hbuffer, fun k _ => by simp⟩
  | cons i order ih =>
    have hi : i < m := horder i List.mem_cons_self
    have hle : (i + 1) * n ≤ m * n := Nat.mul_le_mul_right n hi
    rw [Nat.succ_mul] at hle
    have hfit : i * n + (blocks i).length ≤ buffer.length := by
      rw [hblocks i hi]
      omega
    obtain ⟨hlength, hget⟩ := ih (fun j hj => horder j (List.mem_cons_of_mem _ hj))
      (by rw [length_overwrite hfit]; exact hbuffer)
    refine ⟨hlength, ?_⟩
    intro k hk
    rw [List.foldl_cons, hget k hk]
    have hn : 0 < n := Nat.pos_of_ne_zero fun h => by simp [h] at hk
    have hdiv := Nat.div_add_mod k n
    have hmod := Nat.mod_lt k hn
    rw [Nat.mul_comm] at hdiv
    by_cases hin : k / n ∈ order
    · rw [if_pos hin, if_pos (List.mem_cons_of_mem _ hin)]
    · rw [if_neg hin, getElem?_overwrite hfit, hblocks i hi]
      by_cases heq : k / n = i
      · rw [if_pos (by rw [← heq]; omega), if_pos (by simp [heq]), heq]
        congr 1
        rw [← heq]
        omega
      · have hnot : ¬ (i * n ≤ k ∧ k < i * n + n) := by
          rintro ⟨hlow, hhigh⟩
          apply heq
          apply Nat.div_eq_of_lt_le
          · exact hlow
          · rw [Nat.succ_mul]
            exact hhigh
        rw [if_neg hnot, if_neg (by simp [heq, hin])]

theorem block_overwrites {m n : Nat} {blocks : Nat → List α} (hblocks : ∀ i < m, (blocks i).length = n)
    {order : List Nat} (horder : ∀ i, i ∈ order ↔ i < m) {buffer : List α} (hbuffer : buffer.length = m * n)
    {i : Nat} (hi : i < m) :
    block n i (order.foldl (fun b i => overwrite b (i * n) (blocks i)) buffer) = blocks i := by
  obtain ⟨hlength, hget⟩ := getElem?_overwrites hblocks (fun j hj => (horder j).mp hj) hbuffer
  have hle : (i + 1) * n ≤ m * n := Nat.mul_le_mul_right n hi
  rw [Nat.succ_mul] at hle
  apply List.ext_getElem?
  intro k
  by_cases hk : k < n
  · have hdiv : (i * n + k) / n = i := by
      apply Nat.div_eq_of_lt_le
      · omega
      · rw [Nat.succ_mul]
        omega
    have hmod : (i * n + k) % n = k := by
      rw [Nat.mul_comm, Nat.mul_add_mod, Nat.mod_eq_of_lt hk]
    rw [getElem?_block hk, hget _ (by omega), hdiv, hmod, if_pos ((horder i).mpr hi)]
  · rw [List.getElem?_eq_none, List.getElem?_eq_none]
    · rw [hblocks i hi]
      omega
    · rw [length_block hlength hi]
      omega

/-- Arrays with the same blocks. -/
theorem ext_block {m n : Nat} {data data' : List α} (hlength : data.length = m * n) (hlength' : data'.length = m * n)
    (h : ∀ i < m, block n i data = block n i data') : data = data' := by
  apply List.ext_getElem?
  intro k
  by_cases hk : k < m * n
  · have hn : 0 < n := Nat.pos_of_ne_zero fun h => by simp [h] at hk
    have hdiv : k / n < m := Nat.div_lt_of_lt_mul (by rwa [Nat.mul_comm])
    have hblock := congrArg (·[k % n]?) (h (k / n) hdiv)
    have hplace : k / n * n + k % n = k := by
      rw [Nat.mul_comm]
      exact Nat.div_add_mod k n
    simpa only [getElem?_block (Nat.mod_lt k hn), hplace] using hblock
  · rw [List.getElem?_eq_none (by omega), List.getElem?_eq_none (by omega)]

end Blocks

end RowMajor
