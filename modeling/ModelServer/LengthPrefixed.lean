import Mathlib.Data.List.Basic
import Mathlib.Tactic.Common
import Mathlib.Tactic.Ring

namespace LengthPrefixed

abbrev Bytes := List UInt8

/-- The number that these bytes stand for, the lowest byte first. -/
def value : Bytes → Nat
  | [] => 0
  | byte :: bytes => byte.toNat + 256 * value bytes

def header : Nat → Nat → Bytes
  | 0, _ => []
  | width + 1, n => UInt8.ofNat n :: header width (n / 256)

variable {width n : Nat} {bytes buffer rest remainder : Bytes} {record : Bytes} {records : List Bytes}

theorem value_lt (bytes : Bytes) : value bytes < 256 ^ bytes.length := by
  induction bytes with
  | nil => decide
  | cons byte bytes ih =>
    have hbyte := byte.toNat_lt
    rw [value, List.length_cons, pow_succ]
    omega

@[simp] theorem length_header (width n : Nat) : (header width n).length = width := by
  induction width generalizing n with
  | zero => rfl
  | succ width ih => rw [header, List.length_cons, ih]

theorem value_header (h : n < 256 ^ width) : value (header width n) = n := by
  induction width generalizing n with
  | zero => rw [pow_zero] at h; rw [header, value]; omega
  | succ width ih =>
    have hlt : n / 256 < 256 ^ width := by rw [pow_succ] at h; omega
    rw [header, value, ih hlt, UInt8.toNat_ofNat']
    omega

theorem header_value (bytes : Bytes) : header bytes.length (value bytes) = bytes := by
  induction bytes with
  | nil => rfl
  | cons byte bytes ih =>
    have hbyte := byte.toNat_lt
    have hrest : (byte.toNat + 256 * value bytes) / 256 = value bytes := by omega
    have hfirst : UInt8.ofNat (byte.toNat + 256 * value bytes) = byte := by
      apply UInt8.toNat_inj.mp
      rw [UInt8.toNat_ofNat']
      omega
    rw [List.length_cons, value, header, hrest, hfirst, ih]

/-- A byte string after its length, in little-endian bytes. -/
def encode (width : Nat) (record : Bytes) : Bytes := header width record.length ++ record

/-- The first record of the buffer and what follows it, if the buffer begins with a complete record. -/
def next (width : Nat) (buffer : Bytes) : Option (Bytes × Bytes) :=
  if width ≤ buffer.length ∧ value (buffer.take width) ≤ (buffer.drop width).length then
    some ((buffer.drop width).splitAt (value (buffer.take width)))
  else none

theorem next_encode (h : record.length < 256 ^ width) : next width (encode width record ++ rest) = some (record, rest) := by
  have hheader : (encode width record ++ rest).take width = header width record.length := by
    rw [encode, List.append_assoc, List.take_left' (length_header _ _)]
  have hbody : (encode width record ++ rest).drop width = record ++ rest := by
    rw [encode, List.append_assoc, List.drop_left' (length_header _ _)]
  rw [next, hheader, hbody, value_header h, if_pos]
  · rw [List.splitAt_eq, List.take_left, List.drop_left]
  · simp [encode]

theorem next_eq_some (h : next width buffer = some (record, rest)) :
    buffer = encode width record ++ rest ∧ record.length < 256 ^ width := by
  obtain ⟨⟨hwidth, hfits⟩, h⟩ := Option.ite_none_right_eq_some.mp h
  rw [List.splitAt_eq, Option.some.injEq, Prod.mk.injEq] at h
  obtain ⟨rfl, rfl⟩ := h
  have hlength : (buffer.take width).length = width := List.length_take_of_le hwidth
  have hvalue := value_lt (buffer.take width)
  rw [hlength] at hvalue
  have hrecord : ((buffer.drop width).take (value (buffer.take width))).length = value (buffer.take width) :=
    List.length_take_of_le hfits
  refine ⟨?_, hrecord.symm ▸ hvalue⟩
  have hheader := header_value (buffer.take width)
  rw [hlength] at hheader
  rw [encode, hrecord, hheader, List.append_assoc, List.take_append_drop, List.take_append_drop]

/-- The complete records that the buffer begins with, and what is left after them. -/
inductive Splits (width : Nat) : Bytes → List Bytes → Bytes → Prop
  | done {buffer : Bytes} (h : next width buffer = none) : Splits width buffer [] buffer
  | record {buffer record rest remainder : Bytes} {records : List Bytes} (h : next width buffer = some (record, rest))
      (hrest : Splits width rest records remainder) : Splits width buffer (record :: records) remainder

/-- The buffer is the concatenation of these records. -/
def Concatenation (width : Nat) (records : List Bytes) (buffer : Bytes) : Prop :=
  buffer = records.flatMap (encode width) ∧ ∀ record ∈ records, record.length < 256 ^ width

theorem next_nil (hwidth : 0 < width) : next width [] = none :=
  if_neg fun h => Nat.not_le.mpr hwidth h.1

theorem Splits.unique {records' : List Bytes} {remainder' : Bytes} (h : Splits width buffer records remainder)
    (h' : Splits width buffer records' remainder') : records = records' ∧ remainder = remainder' := by
  induction h generalizing records' remainder' with
  | done hnone =>
    cases h' with
    | done => exact ⟨rfl, rfl⟩
    | record hsome => rw [hnone] at hsome; cases hsome
  | record hsome hrest ih =>
    cases h' with
    | done hnone => rw [hnone] at hsome; cases hsome
    | record hsome' hrest' =>
      cases Option.some.inj (hsome.symm.trans hsome')
      obtain ⟨hrecords, hremainder⟩ := ih hrest'
      exact ⟨congrArg _ hrecords, hremainder⟩

theorem Splits.next_remainder (h : Splits width buffer records remainder) : next width remainder = none := by
  induction h with
  | done hnone => exact hnone
  | record _ _ ih => exact ih

theorem Splits.buffer_eq (h : Splits width buffer records remainder) :
    buffer = records.flatMap (encode width) ++ remainder ∧ ∀ record ∈ records, record.length < 256 ^ width := by
  induction h with
  | done => exact ⟨rfl, nofun⟩
  | record hsome hrest ih =>
    obtain ⟨hbuffer, hlength⟩ := next_eq_some hsome
    refine ⟨?_, List.forall_mem_cons.mpr ⟨hlength, ih.2⟩⟩
    rw [hbuffer, List.flatMap_cons, List.append_assoc, ← ih.1]

theorem Splits.length_le (h : Splits width buffer records remainder) :
    width * records.length + remainder.length ≤ buffer.length := by
  induction h with
  | done => simp
  | @record buffer record rest remainder records hsome hrest ih =>
    have hlength := congrArg List.length (next_eq_some hsome).1
    simp only [encode, List.length_append, length_header] at hlength
    rw [List.length_cons, Nat.mul_succ]
    omega

theorem splits_encoded (hlengths : ∀ record ∈ records, record.length < 256 ^ width) (hrest : next width rest = none) :
    Splits width (records.flatMap (encode width) ++ rest) records rest := by
  induction records with
  | nil => exact .done hrest
  | cons record records ih =>
    obtain ⟨hlength, hlengths⟩ := List.forall_mem_cons.mp hlengths
    rw [List.flatMap_cons, List.append_assoc]
    exact .record (next_encode hlength) (ih hlengths)

/-- A buffer is a concatenation of records just if its complete records leave nothing. -/
theorem concatenation_iff (hwidth : 0 < width) :
    Concatenation width records buffer ↔ Splits width buffer records [] := by
  constructor
  · rintro ⟨rfl, hlengths⟩
    have hsplits := splits_encoded hlengths (next_nil hwidth)
    rwa [List.append_nil] at hsplits
  · intro h
    obtain ⟨hbuffer, hlengths⟩ := h.buffer_eq
    exact ⟨hbuffer.trans (List.append_nil _), hlengths⟩

/-- `Splits`, computed; the number bounds the records. -/
def split (width : Nat) : Nat → Bytes → List Bytes × Bytes
  | 0, buffer => ([], buffer)
  | n + 1, buffer =>
    match next width buffer with
    | none => ([], buffer)
    | some (record, rest) => let (records, remainder) := split width n rest; (record :: records, remainder)

theorem length_rest_lt (hwidth : 0 < width) (h : next width buffer = some (record, rest)) :
    rest.length < buffer.length := by
  have hbuffer := congrArg List.length (next_eq_some h).1
  simp only [encode, List.length_append, length_header] at hbuffer
  omega

theorem splits_split (hwidth : 0 < width) {bound : Nat} (hbound : buffer.length ≤ bound) :
    Splits width buffer (split width bound buffer).1 (split width bound buffer).2 := by
  induction bound generalizing buffer with
  | zero =>
    rw [List.length_eq_zero_iff.mp (Nat.le_zero.mp hbound)]
    exact .done (next_nil hwidth)
  | succ bound ih =>
    rw [split]
    cases hnext : next width buffer with
    | none => exact .done hnext
    | some found =>
      have hlt := length_rest_lt hwidth hnext
      exact .record hnext (ih (by omega))

/-- The complete records that the buffer begins with. -/
def complete (width : Nat) (buffer : Bytes) : List Bytes := (split width buffer.length buffer).1

/-- What is left of the buffer after them. -/
def left (width : Nat) (buffer : Bytes) : Bytes := (split width buffer.length buffer).2

theorem splits_complete (hwidth : 0 < width) (buffer : Bytes) : Splits width buffer (complete width buffer) (left width buffer) :=
  splits_split hwidth le_rfl

theorem left_eq_nil_iff (hwidth : 0 < width) : left width buffer = [] ↔ ∃ records, Concatenation width records buffer := by
  have hsplits := splits_complete hwidth buffer
  constructor
  · intro h
    exact ⟨_, (concatenation_iff hwidth).mpr (h ▸ hsplits)⟩
  · intro h
    obtain ⟨records, hrecords⟩ := h
    exact (hsplits.unique ((concatenation_iff hwidth).mp hrecords)).2

end LengthPrefixed
