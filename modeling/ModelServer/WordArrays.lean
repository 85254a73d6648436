import ModelServer.LengthPrefixed

/-! Arrays of words of one width, the lowest byte of each word first. -/

namespace WordArrays

open LengthPrefixed

/-- The bytes of an array of words. -/
def memory (width : Nat) (words : List Nat) : Bytes := words.flatMap (header width)

/-- As many words as asked for, from the beginning of a buffer. -/
def read (width : Nat) : Nat → Bytes → List Nat
  | 0, _ => []
  | count + 1, bytes => value (bytes.take width) :: read width count (bytes.drop width)

variable {width count : Nat} {words : List Nat} {bytes : Bytes}

@[simp] theorem length_memory : (memory width words).length = words.length * width := by
  induction words with
  | nil => rw [memory, List.flatMap_nil, List.length_nil, List.length_nil, Nat.zero_mul]
  | cons word words ih =>
    rw [memory, List.flatMap_cons, List.length_append, length_header, ← memory, ih, List.length_cons, Nat.succ_mul, Nat.add_comm]

@[simp] theorem length_read : (read width count bytes).length = count := by
  induction count generalizing bytes with
  | zero => rfl
  | succ count ih => rw [read, List.length_cons, ih]

/-- What is read is what was written. -/
theorem read_memory (h : ∀ word ∈ words, word < 256 ^ width) : read width words.length (memory width words) = words := by
  induction words with
  | nil => rfl
  | cons word words ih =>
    obtain ⟨hword, hwords⟩ := List.forall_mem_cons.mp h
    have hlength : (header width word).length = width := length_header width word
    rw [memory, List.flatMap_cons, ← memory, List.length_cons, read, List.take_left' hlength, List.drop_left' hlength,
      value_header hword, ih hwords]

/-- Only the bytes of the words are read. -/
theorem read_take (width count : Nat) (bytes : Bytes) : read width count (bytes.take (count * width)) = read width count bytes := by
  induction count generalizing bytes with
  | zero => rfl
  | succ count ih =>
    rw [read, read, List.take_take, Nat.min_eq_left (by rw [Nat.succ_mul]; omega), List.drop_take, Nat.succ_mul, Nat.add_sub_cancel, ih]

theorem header_add (n a b : Nat) : header (a + b) n = header a n ++ header b (n / 256 ^ a) := by
  induction a generalizing n with
  | zero => rw [Nat.zero_add, pow_zero, Nat.div_one]; rfl
  | succ a ih =>
    rw [Nat.succ_add, header, header, ih, List.cons_append, Nat.div_div_eq_div_mul, pow_succ, Nat.mul_comm 256]

theorem value_header_mod (width n : Nat) : value (header width n) = n % 256 ^ width := by
  induction width generalizing n with
  | zero => rw [pow_zero, Nat.mod_one]; rfl
  | succ width ih =>
    have hbyte : (UInt8.ofNat n).toNat = n % 256 := UInt8.toNat_ofNat'
    rw [header, value, ih, hbyte, pow_succ', Nat.mod_mul]

/-- A part of a word of several parts. -/
def digit (width n i : Nat) : Nat := n / 256 ^ (width * i) % 256 ^ width

theorem getElem?_read {j : Nat} (hj : j < count) : (read width count bytes)[j]? = some (value ((bytes.drop (j * width)).take width)) := by
  induction count generalizing bytes j with
  | zero => exact absurd hj (Nat.not_lt_zero j)
  | succ count ih =>
    cases j with
    | zero => rw [read, List.getElem?_cons_zero, Nat.zero_mul, List.drop_zero]
    | succ j =>
      rw [read, List.getElem?_cons_succ, ih (Nat.lt_of_succ_lt_succ hj), List.drop_drop, Nat.succ_mul, Nat.add_comm width]

theorem value_part {parts i n : Nat} (hi : i < parts) :
    value (((header (width * parts) n).drop (width * i)).take width) = digit width n i := by
  obtain ⟨rest, rfl⟩ := Nat.exists_eq_add_of_lt hi
  have hsplit : width * (i + rest + 1) = width * i + (width + width * rest) := by ring
  rw [hsplit, header_add, List.drop_left' (length_header _ _), header_add, List.take_left' (length_header _ _), value_header_mod]
  rfl

theorem drop_memory {parts i : Nat} (hi : i < words.length) (hoffset : parts ≤ width) :
    (memory width words).drop (i * width + parts) = (header width words[i]).drop parts ++ memory width (words.drop (i + 1)) := by
  induction words generalizing i with
  | nil => exact absurd hi (Nat.not_lt_zero i)
  | cons word words ih =>
    have hlength := length_header width word
    rw [memory, List.flatMap_cons, ← memory]
    cases i with
    | zero =>
      rw [Nat.zero_mul, Nat.zero_add, List.drop_append_of_le_length (by omega), List.getElem_cons_zero, List.drop_succ_cons,
        List.drop_zero]
    | succ i =>
      rw [Nat.succ_mul, Nat.add_right_comm, Nat.add_comm _ width, ← List.drop_drop, List.drop_left' hlength,
        ih (Nat.lt_of_succ_lt_succ hi), List.getElem_cons_succ, List.drop_succ_cons]

/-- Words of several parts each are read a part at a time. -/
theorem read_parts {parts j : Nat} (hj : j < count) (hin : j / parts < words.length) (hparts : 0 < parts) :
    (read width count (memory (width * parts) words))[j]? = some (digit width words[j / parts] (j % parts)) := by
  have hmod := Nat.mod_lt j hparts
  have hoffset : j * width = j / parts * (width * parts) + width * (j % parts) := by
    have hdiv := congrArg (width * ·) (Nat.div_add_mod j parts)
    rw [Nat.mul_add] at hdiv
    rw [Nat.mul_comm j, ← hdiv]
    ring
  have hle : width * (j % parts) ≤ width * parts := Nat.mul_le_mul_left _ (Nat.le_of_lt hmod)
  have hroom : width ≤ ((header (width * parts) words[j / parts]).drop (width * (j % parts))).length := by
    have hstep : width * (j % parts) + width ≤ width * parts := by
      rw [← Nat.mul_succ]
      exact Nat.mul_le_mul_left _ hmod
    rw [List.length_drop, length_header]
    omega
  rw [getElem?_read hj, hoffset, drop_memory hin hle, List.take_append_of_le_length hroom, value_part hmod]

section Parts

variable {α : Type*} {part word : Nat → α} {parts first : Nat} {rest : List Nat} {fill : α}

theorem map_parts_eq_iff (hparts : 0 < parts) :
    (read width words.length (memory (width * parts) words)).map part = words.map word ↔
      ∀ j n m, words[j]? = some n → words[j / parts]? = some m → part (digit width m (j % parts)) = word n := by
  have hin : ∀ {j : Nat}, j < words.length → j / parts < words.length := fun hj => Nat.lt_of_le_of_lt (Nat.div_le_self _ _) hj
  constructor
  · intro h j n m hn hm
    have hj := (List.getElem?_eq_some_iff.mp hn).1
    have hget := congrArg (·[j]?) h
    rw [List.getElem?_map, List.getElem?_map, read_parts hj (hin hj) hparts, hn, ← Option.some_inj] at hget
    rw [List.getElem?_eq_getElem (hin hj), Option.some_inj] at hm
    rw [hm] at hget
    exact Option.some_inj.mp (Option.some_inj.mp hget)
  · intro h
    refine List.ext_getElem (by rw [List.length_map, List.length_map, length_read]) fun j hj hj' => ?_
    rw [List.length_map] at hj'
    have hget : (read width words.length (memory (width * parts) words))[j]? = _ := read_parts hj' (hin hj') hparts
    rw [List.length_map] at hj
    rw [List.getElem?_eq_getElem hj, Option.some_inj] at hget
    rw [List.getElem_map, List.getElem_map, hget]
    exact h j _ _ (List.getElem?_eq_getElem hj') (List.getElem?_eq_getElem (hin hj'))

/-- Where each word is read from the part that stands in its place: the first one is its own first part, and what fills its
other parts fills all the words that follow. -/
theorem parts_agree_iff (hparts : 1 < parts)
    (hfirst : part (digit width first 0) = word first → ∀ i, 0 < i → i < parts → part (digit width first i) = fill)
    (hfill : ∀ n ∈ rest, word n = fill → ∀ i < parts, part (digit width n i) = fill) :
    (read width (first :: rest).length (memory (width * parts) (first :: rest))).map part = (first :: rest).map word ↔
      part (digit width first 0) = word first ∧ ∀ n ∈ rest, word n = fill := by
  have hpos : 0 < parts := Nat.lt_of_succ_lt hparts
  rw [map_parts_eq_iff hpos]
  -- a part in a place behind the first one is a part of an earlier word, or one of the first word that is not its first
  have hpart : (part (digit width first 0) = word first) → ∀ j, (∀ k m, k < j → (first :: rest)[k + 1]? = some m → word m = fill) →
      ∀ m, (first :: rest)[(j + 1) / parts]? = some m → part (digit width m ((j + 1) % parts)) = fill := by
    intro hfits j hearlier m hm
    have hmod := Nat.mod_lt (j + 1) hpos
    by_cases hzero : (j + 1) / parts = 0
    · rw [hzero, List.getElem?_cons_zero, Option.some_inj] at hm
      rw [← hm]
      refine hfirst hfits _ ?_ hmod
      rw [Nat.mod_eq_of_lt ((Nat.div_eq_zero_iff_lt hpos).mp hzero)]
      exact Nat.succ_pos j
    · obtain ⟨k, hk⟩ := Nat.exists_eq_succ_of_ne_zero hzero
      have hlt : (j + 1) / parts < j + 1 := Nat.div_lt_self (Nat.succ_pos j) hparts
      rw [hk] at hm
      have hmem : m ∈ rest := List.mem_of_getElem? (by rwa [List.getElem?_cons_succ] at hm)
      exact hfill m hmem (hearlier k m (by omega) hm) _ hmod
  constructor
  · intro h
    have hfits : part (digit width first 0) = word first := by
      have hzero := h 0 first first rfl (by rw [Nat.zero_div]; rfl)
      rwa [Nat.zero_mod] at hzero
    have hall : ∀ j n, (first :: rest)[j + 1]? = some n → word n = fill := by
      intro j
      induction j using Nat.strong_induction_on with
      | _ j ih =>
        intro n hn
        have hj := (List.getElem?_eq_some_iff.mp hn).1
        have hin := Nat.lt_of_le_of_lt (Nat.div_le_self (j + 1) parts) hj
        rw [← h (j + 1) n _ hn (List.getElem?_eq_getElem hin)]
        exact hpart hfits j (fun k m hk hm => ih k hk m hm) _ (List.getElem?_eq_getElem hin)
    refine ⟨hfits, fun n hn => ?_⟩
    obtain ⟨j, hj⟩ := List.mem_iff_getElem?.mp hn
    exact hall j n hj
  · intro ⟨hfits, hall⟩ j n m hn hm
    cases j with
    | zero =>
      rw [Nat.zero_div] at hm
      rw [List.getElem?_cons_zero, Option.some_inj] at hn hm
      rw [Nat.zero_mod, ← hn, ← hm]
      exact hfits
    | succ j =>
      have hlater : ∀ k m, (first :: rest)[k + 1]? = some m → word m = fill := fun k m hm => hall m (List.mem_of_getElem? hm)
      rw [hlater j n hn]
      exact hpart hfits j (fun k m _ hm => hlater k m hm) m hm

end Parts

end WordArrays
