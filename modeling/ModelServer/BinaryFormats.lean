import Mathlib.Data.Nat.Log
import Mathlib.Algebra.Order.Ring.Nat
import Mathlib.Tactic.Ring

/-- A binary floating point format. Numbers are counted in a unit that every format of a family has a multiple of. -/
structure BinaryFormat where
  /-- The bits of a significand, with the leading one. -/
  precision : Nat
  exponentBits : Nat
  /-- The smallest positive number is `2 ^ least` units. -/
  least : Nat
  precise : 1 < precision
  ranged : 1 < exponentBits

namespace BinaryFormat

variable (F : BinaryFormat)

/-- The bits of a significand that are stored. -/
def fractionBits : Nat := F.precision - 1

/-- The pattern of the infinity. -/
def infinity : Nat := (2 ^ F.exponentBits - 1) * 2 ^ F.fractionBits

def signBit : Nat := 2 ^ (F.exponentBits + F.fractionBits)

/-- The number that a pattern without a sign stands for. -/
def magnitude (pattern : Nat) : Nat :=
  if pattern / 2 ^ F.fractionBits = 0 then pattern * 2 ^ F.least
  else (pattern % 2 ^ F.fractionBits + 2 ^ F.fractionBits) * 2 ^ (F.least + (pattern / 2 ^ F.fractionBits - 1))

/-- The weight of the last place of a number. -/
def lastPlace (n : Nat) : Nat := max F.least (Nat.log 2 n + 1 - F.precision)

/-- The integer next to a quotient, the even one of two. -/
def roundHalfEven (n d : Nat) : Nat :=
  if 2 * (n % d) < d ∨ 2 * (n % d) = d ∧ n / d % 2 = 0 then n / d else n / d + 1

/-- The pattern of the nearest number. -/
def nearest (n : Nat) : Nat :=
  min ((F.lastPlace n - F.least) * 2 ^ F.fractionBits + roundHalfEven n (2 ^ F.lastPlace n)) F.infinity

theorem precision_eq : F.precision = F.fractionBits + 1 := by
  have h := F.precise
  rw [fractionBits]
  omega

theorem roundHalfEven_mul (k : Nat) {d : Nat} (hd : 0 < d) : roundHalfEven (k * d) d = k := by
  rw [roundHalfEven, Nat.mul_mod_left, Nat.mul_div_cancel _ hd, if_pos (.inl hd)]

variable {F}

/-- A significand below the last place that a number has. -/
theorem magnitude_eq {exponent k : Nat} (hk : k < 2 ^ F.precision) (hnormal : exponent = 0 ∨ 2 ^ F.fractionBits ≤ k) :
    F.magnitude (exponent * 2 ^ F.fractionBits + k) = k * 2 ^ (F.least + exponent) := by
  have hpos : 0 < 2 ^ F.fractionBits := Nat.pow_pos (by decide)
  rw [precision_eq, pow_succ] at hk
  rw [magnitude, Nat.add_comm, Nat.add_mul_div_right _ _ hpos, Nat.add_mul_mod_self_right]
  rcases Nat.lt_or_ge k (2 ^ F.fractionBits) with hlt | hge
  · obtain rfl : exponent = 0 := hnormal.resolve_right (by omega)
    rw [Nat.div_eq_of_lt hlt, if_pos rfl, Nat.zero_mul, Nat.add_zero, Nat.add_zero]
  · have hdiv : k / 2 ^ F.fractionBits = 1 := Nat.div_eq_of_lt_le (by omega) (by omega)
    have hmod : k % 2 ^ F.fractionBits + 2 ^ F.fractionBits = k := by
      have := Nat.div_add_mod k (2 ^ F.fractionBits)
      rw [hdiv] at this
      omega
    rw [hdiv, hmod, if_neg (by omega), Nat.add_sub_cancel_left]

theorem log_lt {n k : Nat} (h : n < 2 ^ k) (hk : 0 < k) : Nat.log 2 n < k := by
  rcases Nat.eq_zero_or_pos n with rfl | hn
  · rwa [Nat.log_zero_right]
  · exact (Nat.log_lt_iff_lt_pow (by decide) hn.ne').mpr h

/-- The last place of a significand at its place. -/
theorem lastPlace_eq {exponent k : Nat} (hk : k < 2 ^ F.precision) (hnormal : exponent = 0 ∨ 2 ^ F.fractionBits ≤ k) :
    F.lastPlace (k * 2 ^ (F.least + exponent)) = F.least + exponent := by
  have hprecision := F.precision_eq
  rcases Nat.lt_or_ge k (2 ^ F.fractionBits) with hlt | hge
  · obtain rfl : exponent = 0 := hnormal.resolve_right (by omega)
    have hbelow : k * 2 ^ F.least < 2 ^ (F.precision + F.least) := by
      rw [pow_add]
      exact Nat.mul_lt_mul_of_pos_right hk (Nat.pow_pos (by decide))
    have hlog := log_lt hbelow (by omega)
    show max F.least (Nat.log 2 (k * 2 ^ F.least) + 1 - F.precision) = F.least
    omega
  · have hlog : Nat.log 2 (k * 2 ^ (F.least + exponent)) = F.fractionBits + (F.least + exponent) := by
      refine Nat.log_eq_of_pow_le_of_lt_pow ?_ ?_
      · rw [pow_add]
        exact Nat.mul_le_mul_right _ hge
      · rw [show F.fractionBits + (F.least + exponent) + 1 = F.precision + (F.least + exponent) by omega, pow_add 2 F.precision]
        exact Nat.mul_lt_mul_of_pos_right hk (Nat.pow_pos (by decide))
    rw [lastPlace, hlog]
    omega

/-- A pattern by its exponent and its significand. -/
theorem exists_significand (F : BinaryFormat) (pattern : Nat) : ∃ exponent k, pattern = exponent * 2 ^ F.fractionBits + k ∧
    k < 2 ^ F.precision ∧ (exponent = 0 ∨ 2 ^ F.fractionBits ≤ k) := by
  have hpos : 0 < 2 ^ F.fractionBits := Nat.pow_pos (by decide)
  have hmod := Nat.mod_lt pattern hpos
  have hdiv := Nat.div_add_mod' pattern (2 ^ F.fractionBits)
  rw [precision_eq, pow_succ]
  rcases Nat.eq_zero_or_pos (pattern / 2 ^ F.fractionBits) with hzero | hnormal
  · rw [hzero] at hdiv
    exact ⟨0, pattern, by omega, by omega, .inl rfl⟩
  · refine ⟨pattern / 2 ^ F.fractionBits - 1, pattern % 2 ^ F.fractionBits + 2 ^ F.fractionBits, ?_, by omega, .inr (by omega)⟩
    have hmul := Nat.succ_mul (pattern / 2 ^ F.fractionBits - 1) (2 ^ F.fractionBits)
    rw [Nat.succ_eq_add_one, Nat.sub_add_cancel hnormal] at hmul
    omega

/-- A number that a format has is rounded to its pattern. -/
theorem nearest_magnitude {pattern : Nat} (h : pattern < F.infinity) : F.nearest (F.magnitude pattern) = pattern := by
  obtain ⟨exponent, k, rfl, hk, hnormal⟩ := exists_significand F pattern
  rw [magnitude_eq hk hnormal, nearest, lastPlace_eq hk hnormal, roundHalfEven_mul k (Nat.pow_pos (by decide)), Nat.add_sub_cancel_left]
  exact Nat.min_eq_left (Nat.le_of_lt h)

theorem pattern_lt {exponent k : Nat} (hk : k < 2 ^ F.precision) (hexponent : exponent + 2 < 2 ^ F.exponentBits) :
    exponent * 2 ^ F.fractionBits + k < F.infinity := by
  rw [precision_eq, pow_succ] at hk
  have hmul : (exponent + 2) * 2 ^ F.fractionBits ≤ F.infinity := Nat.mul_le_mul_right _ (by omega)
  rw [Nat.add_mul] at hmul
  omega

/-- A format has the numbers without a place below their last one, as far as its exponents reach. -/
theorem exists_pattern {n bits : Nat} (hdvd : 2 ^ F.lastPlace n ∣ n) (hn : n < 2 ^ bits)
    (hbits : bits + 2 < F.least + F.precision + 2 ^ F.exponentBits) : ∃ pattern < F.infinity, F.magnitude pattern = n := by
  have hranged : 2 ^ 2 ≤ 2 ^ F.exponentBits := Nat.pow_le_pow_right (by decide) F.ranged
  rcases Nat.eq_zero_or_pos n with rfl | hpos
  · refine ⟨0, ?_, by rw [magnitude, Nat.zero_div, if_pos rfl, Nat.zero_mul]⟩
    have hlt : 0 * 2 ^ F.fractionBits + 0 < F.infinity := pattern_lt (Nat.pow_pos (by decide)) (by omega)
    rwa [Nat.zero_mul] at hlt
  obtain ⟨k, hk⟩ := hdvd
  have hprecision := F.precision_eq
  have hlog : Nat.log 2 n < bits := Nat.log_lt_of_lt_pow hpos.ne' hn
  have hplace : F.lastPlace n = max F.least (Nat.log 2 n + 1 - F.precision) := rfl
  have hsum : F.lastPlace n = F.least + (F.lastPlace n - F.least) := by omega
  have hbelow : k < 2 ^ F.precision := by
    have hlt : n < 2 ^ (F.lastPlace n + F.precision) :=
      Nat.lt_of_lt_of_le (Nat.lt_pow_succ_log_self (by decide) n) (Nat.pow_le_pow_right (by decide) (by omega))
    have hmul : 2 ^ F.lastPlace n * k < 2 ^ F.lastPlace n * 2 ^ F.precision := by rwa [← hk, ← pow_add]
    exact Nat.lt_of_mul_lt_mul_left hmul
  have hnormal : F.lastPlace n - F.least = 0 ∨ 2 ^ F.fractionBits ≤ k := by
    refine or_iff_not_imp_left.mpr fun hne => ?_
    have hle : 2 ^ Nat.log 2 n ≤ n := Nat.pow_log_le_self 2 hpos.ne'
    rw [show Nat.log 2 n = F.lastPlace n + F.fractionBits by omega, pow_add] at hle
    exact Nat.le_of_mul_le_mul_left (hle.trans_eq hk) (Nat.pow_pos (by decide))
  have hlt : (F.lastPlace n - F.least) * 2 ^ F.fractionBits + k < F.infinity := pattern_lt hbelow (by omega)
  refine ⟨_, hlt, ?_⟩
  rw [magnitude_eq hbelow hnormal, ← hsum, Nat.mul_comm]
  exact hk.symm

section Signed

variable (F) (G : BinaryFormat)

/-- Neither an infinity nor a NaN. -/
def finite (bits : Nat) : Bool := bits % F.signBit < F.infinity

/-- The number that a pattern stands for. -/
def value (bits : Nat) : Int := if bits / F.signBit % 2 = 0 then F.magnitude (bits % F.signBit) else -F.magnitude (bits % F.signBit)

/-- A NaN without a payload. -/
def nan : Nat := F.infinity + 2 ^ (F.fractionBits - 1)

/-- A pattern with a sign. -/
def signed (negative : Bool) (pattern : Nat) : Nat := if negative then F.signBit + pattern else pattern

/-- The conversion of a number to another format. -/
def convert (bits : Nat) : Nat :=
  G.signed (bits / F.signBit % 2 ≠ 0)
    (if bits % F.signBit < F.infinity then G.nearest (F.magnitude (bits % F.signBit))
      else if bits % F.signBit = F.infinity then G.infinity else G.nan)

/-- The conversion of an integer, of which the number one is `2 ^ scale` units. -/
def ofInt (scale : Nat) (n : Int) : Nat := F.signed (n < 0) (F.nearest (n.natAbs * 2 ^ scale))

variable {F G}

theorem infinity_lt_signBit : F.infinity < F.signBit := by
  rw [infinity, signBit, pow_add]
  exact Nat.mul_lt_mul_of_pos_right (Nat.sub_lt (Nat.pow_pos (by decide)) (by decide)) (Nat.pow_pos (by decide))

theorem signed_div {negative : Bool} {pattern : Nat} (h : pattern < F.signBit) :
    F.signed negative pattern / F.signBit % 2 = negative.toNat ∧ F.signed negative pattern % F.signBit = pattern := by
  have hpos : 0 < F.signBit := Nat.pow_pos (by decide)
  cases negative with
  | true =>
    rw [signed, if_pos rfl, Nat.add_div_left _ hpos, Nat.div_eq_of_lt h, Nat.add_mod_left, Nat.mod_eq_of_lt h]
    exact ⟨rfl, rfl⟩
  | false =>
    rw [signed, if_neg (by decide), Nat.div_eq_of_lt h, Nat.mod_eq_of_lt h]
    exact ⟨rfl, rfl⟩

theorem finite_signed {negative : Bool} {pattern : Nat} (h : pattern < F.signBit) : F.finite (F.signed negative pattern) = decide (pattern < F.infinity) := by
  rw [finite, (signed_div h).2]

theorem value_signed {negative : Bool} {pattern : Nat} (h : pattern < F.signBit) :
    F.value (F.signed negative pattern) = if negative then -(F.magnitude pattern : Int) else F.magnitude pattern := by
  rw [value, (signed_div h).1, (signed_div h).2]
  cases negative with
  | true => rfl
  | false => rfl

theorem signed_lt {negative : Bool} {pattern : Nat} (h : pattern < F.signBit) : F.signed negative pattern < 2 * F.signBit := by
  rw [signed]
  split <;> omega

theorem nan_lt_signBit : F.nan < F.signBit := by
  have hprecise : F.fractionBits - 1 < F.fractionBits := by
    have := F.precise
    rw [fractionBits]
    omega
  have hlower : 2 ^ (F.fractionBits - 1) < 2 ^ F.fractionBits := Nat.pow_lt_pow_right (by decide) hprecise
  have hall : F.infinity + 2 ^ F.fractionBits = F.signBit := by
    rw [infinity, signBit, pow_add, ← Nat.succ_mul, Nat.succ_eq_add_one, Nat.sub_add_cancel (Nat.pow_pos (by decide))]
  rw [nan]
  omega

theorem nearest_lt_signBit (n : Nat) : F.nearest n < F.signBit := Nat.lt_of_le_of_lt (Nat.min_le_right ..) infinity_lt_signBit

theorem convert_lt (bits : Nat) : F.convert G bits < 2 * G.signBit := by
  refine signed_lt ?_
  split
  · exact nearest_lt_signBit _
  · split
    · exact infinity_lt_signBit
    · exact nan_lt_signBit

theorem natAbs_value (bits : Nat) : (F.value bits).natAbs = F.magnitude (bits % F.signBit) := by
  rw [value]
  split
  · exact Int.natAbs_natCast _
  · exact (Int.natAbs_neg _).trans (Int.natAbs_natCast _)

/-- A number that a format has is the value of what it is rounded to, with its sign. -/
theorem nearest_exact {bits n : Nat} (hbits : F.finite bits) (h : (F.value bits).natAbs = n) (negative : Bool) :
    F.finite (F.signed negative (F.nearest n)) ∧ F.value (F.signed negative (F.nearest n)) = if negative then -(n : Int) else n := by
  have hlt : bits % F.signBit < F.infinity := of_decide_eq_true hbits
  have hn : F.magnitude (bits % F.signBit) = n := (natAbs_value bits).symm.trans h
  have hnearest : F.nearest n = bits % F.signBit := by rw [← hn, nearest_magnitude hlt]
  have hsign := Nat.lt_trans hlt infinity_lt_signBit
  rw [hnearest, finite_signed hsign, value_signed hsign, hn]
  exact ⟨decide_eq_true hlt, rfl⟩

/-- A number that the other format has is kept. -/
theorem convert_exact {bits other : Nat} (hfinite : F.finite bits) (hother : G.finite other) (h : G.value other = F.value bits) :
    G.finite (F.convert G bits) ∧ G.value (F.convert G bits) = F.value bits := by
  have hlt : bits % F.signBit < F.infinity := of_decide_eq_true hfinite
  have habs : (G.value other).natAbs = F.magnitude (bits % F.signBit) := by rw [h, natAbs_value]
  obtain ⟨hkept, hvalue⟩ := nearest_exact hother habs (bits / F.signBit % 2 ≠ 0)
  rw [convert, if_pos hlt]
  refine ⟨hkept, hvalue.trans ?_⟩
  rw [value]
  by_cases hsign : bits / F.signBit % 2 = 0
  · rw [if_pos hsign, if_neg (by simpa using hsign)]
  · rw [if_neg hsign, if_pos (by simpa using hsign)]

/-- What is finite after a conversion was finite before. -/
theorem finite_of_convert {bits : Nat} (h : G.finite (F.convert G bits)) : F.finite bits := by
  refine decide_eq_true (Decidable.byContradiction fun hlt => ?_)
  have hfraction : 0 < 2 ^ (G.fractionBits - 1) := Nat.pow_pos (by decide)
  rw [convert, if_neg hlt] at h
  split at h
  · rw [finite_signed infinity_lt_signBit] at h
    exact Nat.lt_irrefl _ (of_decide_eq_true h)
  · rw [finite_signed nan_lt_signBit] at h
    have hbelow : G.infinity + 2 ^ (G.fractionBits - 1) < G.infinity := of_decide_eq_true h
    omega

/-- An integer that the format has is kept. -/
theorem ofInt_exact {scale : Nat} {n : Int} {bits : Nat} (hbits : F.finite bits) (h : F.value bits = n * 2 ^ scale) :
    F.finite (F.ofInt scale n) ∧ F.value (F.ofInt scale n) = n * 2 ^ scale := by
  have habs : (F.value bits).natAbs = n.natAbs * 2 ^ scale := by
    rw [h, Int.natAbs_mul, Int.natAbs_pow]
    rfl
  obtain ⟨hkept, hvalue⟩ := nearest_exact hbits habs (n < 0)
  refine ⟨hkept, hvalue.trans ?_⟩
  rw [Nat.cast_mul, Nat.cast_pow, Nat.cast_ofNat]
  by_cases hneg : n < 0
  · rw [if_pos (decide_eq_true hneg), Int.ofNat_natAbs_of_nonpos (Int.le_of_lt hneg), Int.neg_mul, Int.neg_neg]
  · rw [if_neg (by simpa using hneg), Int.natAbs_of_nonneg (by omega)]

end Signed

section Widening

variable {G : BinaryFormat}

/-- The other format has as many places, and its exponents reach as far on both sides. -/
structure Within (F G : BinaryFormat) : Prop where
  precision : F.precision ≤ G.precision
  least : G.least ≤ F.least
  range : F.least + F.precision + 2 ^ F.exponentBits + 2 ≤ G.least + G.precision + 2 ^ G.exponentBits

/-- A wider format has the numbers of a format. -/
theorem Within.exists_magnitude (hw : F.Within G) {pattern : Nat} (h : pattern < F.infinity) :
    ∃ wider < G.infinity, G.magnitude wider = F.magnitude pattern := by
  obtain ⟨exponent, k, rfl, hk, hnormal⟩ := exists_significand F pattern
  rw [magnitude_eq hk hnormal]
  have hexponent : exponent < 2 ^ F.exponentBits := by
    have hlt : exponent * 2 ^ F.fractionBits < 2 ^ F.exponentBits * 2 ^ F.fractionBits :=
      Nat.lt_of_lt_of_le (Nat.lt_of_le_of_lt (Nat.le_add_right _ k) h) (Nat.mul_le_mul_right _ (Nat.sub_le _ _))
    exact Nat.lt_of_mul_lt_mul_right hlt
  have hbelow : k * 2 ^ (F.least + exponent) < 2 ^ (F.precision + (F.least + exponent)) := by
    rw [pow_add 2 F.precision]
    exact Nat.mul_lt_mul_of_pos_right hk (Nat.pow_pos (by decide))
  obtain ⟨hprecision, hleast, hrange⟩ := hw
  refine exists_pattern ?_ hbelow (by omega)
  have hlog : Nat.log 2 (k * 2 ^ (F.least + exponent)) < F.precision + (F.least + exponent) :=
    log_lt hbelow (by have := F.precise; omega)
  have hplace : G.lastPlace (k * 2 ^ (F.least + exponent)) ≤ F.least + exponent := by
    rw [lastPlace]
    omega
  exact Nat.dvd_mul_left_of_dvd (pow_dvd_pow 2 hplace) k

theorem Within.exists_value (hw : F.Within G) {bits : Nat} (h : F.finite bits) :
    ∃ wider, G.finite wider ∧ G.value wider = F.value bits := by
  obtain ⟨wider, hwider, heq⟩ := hw.exists_magnitude (of_decide_eq_true h)
  refine ⟨G.signed (bits / F.signBit % 2 ≠ 0) wider, ?_⟩
  have hsign := Nat.lt_trans hwider infinity_lt_signBit
  rw [finite_signed hsign, value_signed hsign, heq, value]
  refine ⟨decide_eq_true hwider, ?_⟩
  by_cases hzero : bits / F.signBit % 2 = 0
  · rw [if_pos hzero, if_neg (by simpa using hzero)]
  · rw [if_neg hzero, if_pos (by simpa using hzero)]

/-- A conversion to a wider format and what is finite. -/
theorem Within.convert_exact (hw : F.Within G) {bits : Nat} (h : F.finite bits) :
    G.finite (F.convert G bits) ∧ G.value (F.convert G bits) = F.value bits := by
  obtain ⟨wider, hwider, heq⟩ := hw.exists_value h
  exact BinaryFormat.convert_exact h hwider heq

end Widening

end BinaryFormat
