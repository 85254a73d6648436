import Mathlib.Data.List.Infix
import Mathlib.Data.Nat.Find
import Mathlib.Tactic.Common

namespace Occurrence

variable {α : Type*}

/-- `pat` begins at offset `i` of `text`. -/
def At (pat text : List α) (i : Nat) : Prop := pat <+: text.drop i

instance [DecidableEq α] (pat text : List α) (i : Nat) : Decidable (At pat text i) :=
  inferInstanceAs (Decidable (pat <+: text.drop i))

theorem At.length_le {pat text : List α} {i : Nat} (hp : pat ≠ []) (h : At pat text i) :
    i + pat.length ≤ text.length := by
  have hl := List.IsPrefix.length_le h
  have hpos := List.length_pos_iff.mpr hp
  simp only [List.length_drop] at hl
  omega

theorem At.append {pat text : List α} {i : Nat} (h : At pat text i) (x : List α) :
    At pat (text ++ x) i := by
  unfold At at h ⊢
  rw [List.drop_append]
  exact h.trans (List.prefix_append _ _)

theorem At.of_append {pat text x : List α} {i : Nat} (h : At pat (text ++ x) i)
    (hb : i + pat.length ≤ text.length) : At pat text i := by
  unfold At at h ⊢
  rw [List.drop_append] at h
  exact List.prefix_of_prefix_length_le h (List.prefix_append _ _)
    (by simp only [List.length_drop]; omega)

theorem at_drop {pat text : List α} {k i : Nat} :
    At pat (text.drop k) i ↔ At pat text (k + i) := by
  unfold At
  rw [List.drop_drop]

theorem at_append_left {pat pre text : List α} {i : Nat} :
    At pat (pre ++ text) (pre.length + i) ↔ At pat text i := by
  unfold At
  rw [List.drop_append, List.drop_eq_nil_of_le (by omega), List.nil_append,
    Nat.add_sub_cancel_left]

theorem at_zero {pat rest : List α} : At pat (pat ++ rest) 0 :=
  List.prefix_append _ _

/-- The part of a text up to an occurrence, the occurrence and what follows it. -/
theorem At.split {pat text : List α} {i : Nat} (h : At pat text i) (hp : pat ≠ []) :
    text = text.take i ++ (pat ++ text.drop (i + pat.length)) := by
  obtain ⟨rest, hr⟩ := h
  have hb := At.length_le hp (⟨rest, hr⟩ : At pat text i)
  have hd : text.drop (i + pat.length) = rest := by
    rw [← List.drop_drop, ← hr, List.drop_left]
  rw [hd, hr, List.take_append_drop]

theorem infix_iff_at {pat text : List α} : pat <:+: text ↔ ∃ i, At pat text i := by
  constructor
  · intro ⟨pre, post, h⟩
    refine ⟨pre.length, post, ?_⟩
    rw [← h, List.append_assoc, List.drop_left]
  · intro ⟨i, post, h⟩
    refine ⟨text.take i, post, ?_⟩
    rw [List.append_assoc, h, List.take_append_drop]

/-- Two overlapping occurrences: the one that begins later and ends no later lies inside the other. -/
theorem At.inside {a b text : List α} {p q : Nat} (ha : At a text p) (hb : At b text q)
    (hle : q ≤ p) (hend : p + a.length ≤ q + b.length) : a <+: b.drop (p - q) := by
  obtain ⟨rest, hr⟩ := hb
  have hp : text.drop p = b.drop (p - q) ++ rest.drop (p - q - b.length) := by
    rw [← List.drop_append, hr, List.drop_drop]
    congr 1
    omega
  unfold At at ha
  rw [hp] at ha
  exact List.prefix_of_prefix_length_le ha (List.prefix_append _ _)
    (by simp only [List.length_drop]; omega)

/-- No occurrence of `a` inside `b` ends before `b` does. -/
def Separated (a b : List α) : Prop :=
  ∀ k ≤ b.length, k + a.length < b.length → ¬ a <+: b.drop k

instance [DecidableEq α] (a b : List α) : Decidable (Separated a b) :=
  inferInstanceAs (Decidable (∀ k ≤ b.length, k + a.length < b.length → ¬ a <+: b.drop k))

/-- No suffix of `b` that leaves something of `b` behind can begin a text that `m` begins. -/
def Clean (m b : List α) : Prop :=
  ∀ k < b.length, 0 < k → ¬ b.drop k <+: m ∧ ¬ m <+: b.drop k

instance [DecidableEq α] (m b : List α) : Decidable (Clean m b) :=
  inferInstanceAs (Decidable (∀ k < b.length, 0 < k → ¬ b.drop k <+: m ∧ ¬ m <+: b.drop k))

theorem Separated.complete {a b text x : List α} {p q : Nat} (h : Separated a b)
    (ha : At a text p) (hab : p + a.length ≤ text.length)
    (hq : At b (text ++ x) q) (hle : q ≤ p) : At b text q := by
  by_contra hn
  have hlong : text.length < q + b.length := by
    by_contra hs
    exact hn (hq.of_append (by omega))
  have hin := (ha.append x).inside hq hle (by omega)
  exact h (p - q) (by omega) (by omega) hin

/-- A text that begins with `m` cannot complete an occurrence of `b` begun before it. -/
theorem Clean.straddle {m b pre rest : List α} {q : Nat} (h : Clean m b)
    (hq : At b (pre ++ (m ++ rest)) q) (hlt : q < pre.length) : At b pre q := by
  by_contra hn
  have hlong : pre.length < q + b.length := by
    by_contra hs
    exact hn (hq.of_append (by omega))
  have hk : b.drop (pre.length - q) <+: m ++ rest := by
    obtain ⟨tail, ht⟩ := hq
    refine ⟨tail, ?_⟩
    have hd := congrArg (List.drop (pre.length - q)) ht
    rw [List.drop_append, List.drop_drop, List.drop_append] at hd
    rw [show pre.length - q - b.length = 0 by omega, List.drop_zero] at hd
    rw [hd, List.drop_eq_nil_of_le (by omega), List.nil_append,
      show q + (pre.length - q) - pre.length = 0 by omega, List.drop_zero]
  have hc := h (pre.length - q) (by omega) (by omega)
  rcases List.prefix_or_prefix_of_prefix hk (List.prefix_append m rest) with hp | hp
  · exact hc.1 hp
  · exact hc.2 hp

section Search

variable [DecidableEq α]

/-- First offset at which `pat` begins in a text. -/
def indexOf? (pat : List α) : List α → Option Nat
  | [] => if pat.isPrefixOf [] then some 0 else none
  | x :: xs =>
    if pat.isPrefixOf (x :: xs) then some 0 else (indexOf? pat xs).map (· + 1)

theorem indexOf?_eq_some_iff {pat text : List α} {i : Nat} (hp : pat ≠ []) :
    indexOf? pat text = some i ↔ At pat text i ∧ ∀ j < i, ¬ At pat text j := by
  induction text generalizing i with
  | nil =>
    have hn : ∀ j, ¬ At pat ([] : List α) j := by
      intro j hj
      have := hj.length_le hp
      have := List.length_pos_iff.mpr hp
      simp only [List.length_nil] at *
      omega
    have hf : pat.isPrefixOf ([] : List α) = false := by cases pat <;> simp_all
    simp [indexOf?, hf, hn]
  | cons x xs ih =>
    unfold indexOf?
    split
    next h =>
      have h0 : At pat (x :: xs) 0 := List.isPrefixOf_iff_prefix.mp h
      constructor
      · intro he
        cases he
        exact ⟨h0, by simp⟩
      · rintro ⟨_, hmin⟩
        cases i with
        | zero => rfl
        | succ i => exact absurd h0 (hmin 0 (by omega))
    next h =>
      have h0 : ¬ At pat (x :: xs) 0 := fun hh => h (List.isPrefixOf_iff_prefix.mpr hh)
      have shift : ∀ j, At pat (x :: xs) (j + 1) ↔ At pat xs j := fun j => Iff.rfl
      cases i with
      | zero => simp [h0]
      | succ i =>
        simp only [Option.map_eq_some_iff, Nat.add_right_cancel_iff, exists_eq_right]
        rw [ih, shift]
        refine and_congr_right fun _ => ⟨fun hmin j hj => ?_, fun hmin j hj => ?_⟩
        · cases j with
          | zero => exact h0
          | succ j => exact fun hh => hmin j (by omega) ((shift j).mp hh)
        · exact fun hh => hmin (j + 1) (by omega) ((shift j).mpr hh)

theorem exists_first {pat text : List α} (hp : pat ≠ []) {i : Nat} (h : At pat text i) :
    ∃ j ≤ i, indexOf? pat text = some j := by
  classical
  have hex : ∃ j, At pat text j := ⟨i, h⟩
  refine ⟨Nat.find hex, Nat.find_min' hex h, ?_⟩
  exact (indexOf?_eq_some_iff hp).mpr ⟨Nat.find_spec hex, fun j hj => Nat.find_min hex hj⟩

theorem indexOf?_eq_none_iff {pat text : List α} (hp : pat ≠ []) :
    indexOf? pat text = none ↔ ∀ i, ¬ At pat text i := by
  constructor
  · intro hn i hi
    obtain ⟨j, _, hj⟩ := exists_first hp hi
    rw [hn] at hj
    cases hj
  · intro hn
    cases h : indexOf? pat text with
    | none => rfl
    | some i => exact absurd ((indexOf?_eq_some_iff hp).mp h).1 (hn i)

/-- The text before a first occurrence has none. -/
theorem split_at_first {pat text : List α} {i : Nat} (hp : pat ≠ [])
    (h : indexOf? pat text = some i) :
    text = text.take i ++ (pat ++ text.drop (i + pat.length)) ∧ (text.take i).length = i ∧
      ¬ pat <:+: text.take i := by
  obtain ⟨hat, hfirst⟩ := (indexOf?_eq_some_iff hp).mp h
  have hlen := hat.length_le hp
  have hpos := List.length_pos_iff.mpr hp
  have hsplit := hat.split hp
  refine ⟨hsplit, by rw [List.length_take]; omega, fun hin => ?_⟩
  obtain ⟨k, hk⟩ := infix_iff_at.mp hin
  have hle := hk.length_le hp
  have hwhole := hk.append (pat ++ text.drop (i + pat.length))
  rw [← hsplit] at hwhole
  rw [List.length_take] at hle
  exact hfirst k (by omega) hwhole

end Search

/-- Delimiters no one of which ends inside another. -/
structure Delimiters (α : Type*) where
  marks : List (List α)
  nonempty : ∀ m ∈ marks, m ≠ []
  separated : ∀ a ∈ marks, ∀ b ∈ marks, Separated a b

/-- `m` is the delimiter that begins first in `text`, at offset `i`. -/
structure Earliest (ds : Delimiters α) (text m : List α) (i : Nat) : Prop where
  mem : m ∈ ds.marks
  here : At m text i
  first : ∀ m' ∈ ds.marks, ∀ j < i, ¬ At m' text j

namespace Earliest

variable {ds : Delimiters α} {text m : List α} {i : Nat}

theorem length_le (h : Earliest ds text m i) : i + m.length ≤ text.length :=
  h.here.length_le (ds.nonempty m h.mem)

/-- Later text never revises the first delimiter of a partial text. -/
theorem append (h : Earliest ds text m i) (x : List α) : Earliest ds (text ++ x) m i where
  mem := h.mem
  here := h.here.append x
  first m' hm' j hj hat :=
    h.first m' hm' j hj ((ds.separated m h.mem m' hm').complete
      h.here h.length_le hat (by omega))

/-- What follows the first delimiter does not matter. -/
theorem cut (h : Earliest ds text m i) : Earliest ds (text.take i ++ m) m (text.take i).length where
  mem := h.mem
  here := by
    have h0 : At m m 0 := List.prefix_rfl
    exact at_append_left.mpr h0
  first m' hm' j hj hat := by
    have hl := h.length_le
    rw [List.length_take, Nat.min_eq_left (by omega)] at hj
    refine h.first m' hm' j hj ?_
    have hs := h.here.split (ds.nonempty m h.mem)
    rw [← List.append_assoc] at hs
    rw [hs]
    exact hat.append _

theorem not_at_other (h : Earliest ds text m i) {m' : List α} (hm' : m' ∈ ds.marks)
    (hne : m' ≠ m) {j : Nat} (hat : At m' text j) : i < j := by
  rcases Nat.lt_trichotomy i j with hlt | rfl | hgt
  · exact hlt
  · exfalso
    rcases Nat.lt_trichotomy m.length m'.length with hl | hl | hl
    · exact ds.separated m h.mem m' hm' 0 (by omega) (by omega)
        (List.prefix_of_prefix_length_le h.here hat hl.le)
    · exact hne ((List.prefix_of_prefix_length_le hat h.here hl.ge).eq_of_length hl.symm)
    · exact ds.separated m' hm' m h.mem 0 (by omega) (by omega)
        (List.prefix_of_prefix_length_le hat h.here hl.le)
  · exact absurd hat (h.first m' hm' j hgt)

theorem unique (h : Earliest ds text m i) {m' : List α} {j : Nat}
    (h' : Earliest ds text m' j) : m' = m ∧ j = i := by
  have hij : ¬ j < i := fun hlt => h.first m' h'.mem j hlt h'.here
  have hji : ¬ i < j := fun hlt => h'.first m h.mem i hlt h.here
  have hj : j = i := by omega
  refine ⟨?_, hj⟩
  by_contra hne
  have := h.not_at_other h'.mem hne h'.here
  omega

variable [DecidableEq α]

theorem indexOf?_eq (h : Earliest ds text m i) : indexOf? m text = some i :=
  (indexOf?_eq_some_iff (ds.nonempty m h.mem)).mpr ⟨h.here, h.first m h.mem⟩

theorem indexOf?_other (h : Earliest ds text m i) {m' : List α} (hm' : m' ∈ ds.marks)
    (hne : m' ≠ m) : indexOf? m' text = none ∨ ∃ j, i < j ∧ indexOf? m' text = some j := by
  cases hj : indexOf? m' text with
  | none => exact Or.inl rfl
  | some j =>
    have hat := ((indexOf?_eq_some_iff (ds.nonempty m' hm')).mp hj).1
    exact Or.inr ⟨j, h.not_at_other hm' hne hat, rfl⟩

end Earliest

theorem earliest_or_none (ds : Delimiters α) (text : List α) :
    (∃ m i, Earliest ds text m i) ∨ ∀ m ∈ ds.marks, ∀ i, ¬ At m text i := by
  classical
  by_cases hex : ∃ i, ∃ m ∈ ds.marks, At m text i
  · left
    obtain ⟨m, hm, hat⟩ := Nat.find_spec hex
    exact ⟨m, Nat.find hex, hm, hat, fun m' hm' j hj hh => Nat.find_min hex hj ⟨m', hm', hh⟩⟩
  · right
    intro m hm i hat
    exact hex ⟨i, m, hm, hat⟩

/-- A delimiter put after a text without delimiters is the first one, whatever was left half open. -/
theorem earliest_after {ds : Delimiters α} {pre m rest : List α} (hm : m ∈ ds.marks)
    (clean : ∀ b ∈ ds.marks, Clean m b) (quiet : ∀ b ∈ ds.marks, ∀ i, ¬ At b pre i) :
    Earliest ds (pre ++ (m ++ rest)) m pre.length where
  mem := hm
  here := by
    have h0 : At m (m ++ rest) 0 := at_zero
    simpa using at_append_left.mpr h0
  first b hb j hj hat := quiet b hb j ((clean b hb).straddle hat hj)

/-- No occurrence is completed where a marker begins that it cannot overlap. -/
theorem Clean.infix_append {m b pre rest : List α} (h : Clean m b) :
    b <:+: pre ++ (m ++ rest) ↔ b <:+: pre ∨ b <:+: m ++ rest := by
  constructor
  · intro hin
    obtain ⟨i, hat⟩ := infix_iff_at.mp hin
    by_cases hlt : i < pre.length
    · exact Or.inl (infix_iff_at.mpr ⟨i, h.straddle hat hlt⟩)
    · obtain ⟨k, rfl⟩ := Nat.exists_eq_add_of_le (Nat.le_of_not_lt hlt)
      exact Or.inr (infix_iff_at.mpr ⟨k, at_append_left.mp hat⟩)
  · rintro (hin | hin)
    · exact hin.trans (List.prefix_append _ _).isInfix
    · exact hin.trans (List.suffix_append _ _).isInfix

/-- A text is cut in one way at the first of a delimiter that cannot overlap itself. -/
theorem first_unique {m a b x y : List α} (hm : m ≠ []) (clean : Clean m m) (ha : ¬ m <:+: a)
    (hb : ¬ m <:+: b) (h : a ++ (m ++ x) = b ++ (m ++ y)) : a = b ∧ x = y := by
  let ds : Delimiters α :=
    { marks := [m]
      nonempty := by simpa using hm
      separated := by
        simp only [List.mem_singleton, forall_eq]
        intro k _ hlt
        omega }
  have hclean : ∀ b ∈ ds.marks, Clean m b := by simpa [ds] using clean
  have hquiet {pre : List α} (hpre : ¬ m <:+: pre) : ∀ b ∈ ds.marks, ∀ i, ¬ At b pre i := by
    intro b hmem i hat
    rw [List.mem_singleton.mp hmem] at hat
    exact hpre (infix_iff_at.mpr ⟨i, hat⟩)
  have hmem : m ∈ ds.marks := List.mem_singleton_self m
  have hfirst : Earliest ds (a ++ (m ++ x)) m a.length := earliest_after hmem hclean (hquiet ha)
  have hfirst' : Earliest ds (b ++ (m ++ y)) m b.length := earliest_after hmem hclean (hquiet hb)
  rw [h] at hfirst
  obtain ⟨_, hlen⟩ := hfirst.unique hfirst'
  obtain ⟨hab, hxy⟩ := List.append_inj h hlen.symm
  exact ⟨hab, List.append_cancel_left hxy⟩

end Occurrence
