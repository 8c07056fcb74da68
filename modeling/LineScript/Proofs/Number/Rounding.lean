import LineScript.Number.Reading
import LineScript.Number.Shortest
import LineScript.Proofs.Number.Bits
import LineScript.Proofs.Number.Whole

/-!
# Rounding to doubles

A quotient is rounded to a whole number of units, and the unit is the finest that leaves no more
than 53 bits. Main statement: a decimal reads as a given double just if its value lies in the
interval of the reals that round to this double.
-/

namespace LineScript.Number

section Scales

theorem scale2_pos (e : Int) : 0 < (scale2 e).1 ∧ 0 < (scale2 e).2 :=
  ⟨twoTo_pos _, twoTo_pos _⟩

theorem scale10_pos (e : Int) : 0 < (scale10 e).1 ∧ 0 < (scale10 e).2 :=
  ⟨tenTo_pos _, tenTo_pos _⟩

theorem pow_toNat_div {b : ℚ} (hb : b ≠ 0) (e : Int) : b ^ e.toNat / b ^ (-e).toNat = b ^ e := by
  rw [← zpow_natCast, ← zpow_natCast, ← zpow_sub₀ hb, Int.toNat_sub_toNat_neg]

theorem scale2_div (e : Int) : ((scale2 e).1 : ℚ) / (scale2 e).2 = 2 ^ e := by
  rw [← pow_toNat_div two_ne_zero]
  simp [scale2, twoTo]

theorem scale10_div (e : Int) : ((scale10 e).1 : ℚ) / (scale10 e).2 = 10 ^ e := by
  rw [← pow_toNat_div (by norm_num)]
  simp [scale10, tenTo]

/-- Quotients are compared by multiplying out. -/
theorem mul_le_mul_iff_div {x y a b c d : Nat} (hb : 0 < b) (hd : 0 < d) :
    x * a * d ≤ y * c * b ↔ (x * (a / b) : ℚ) ≤ y * (c / d) := by
  rw [← mul_div_assoc, ← mul_div_assoc,
    div_le_div_iff₀ (by exact_mod_cast hb) (by exact_mod_cast hd)]
  exact_mod_cast Iff.rfl

end Scales

section Intervals

/-- Between two bounds, which are included or not. -/
def Between (closed : Bool) (low high v : ℚ) : Prop :=
  if closed then low ≤ v ∧ v ≤ high else low < v ∧ v < high

theorem Between.bounds {closed : Bool} {low high v : ℚ} (h : Between closed low high v) :
    low ≤ v ∧ v ≤ high := by
  cases closed with
  | true => exact h
  | false => exact ⟨h.1.le, h.2.le⟩

theorem between_of_lt {low high v : ℚ} (closed : Bool) (hlow : low < v) (hhigh : v < high) :
    Between closed low high v := by
  cases closed with
  | true => exact ⟨hlow.le, hhigh.le⟩
  | false => exact ⟨hlow, hhigh⟩

/-- What lies between two numbers of an interval belongs to it. -/
theorem Between.convex {closed : Bool} {low high u v w : ℚ} (hu : Between closed low high u)
    (hw : Between closed low high w) (huv : u ≤ v) (hvw : v ≤ w) : Between closed low high v := by
  cases closed with
  | true => exact ⟨hu.1.trans huv, hvw.trans hw.2⟩
  | false => exact ⟨hu.1.trans_le huv, hvw.trans_lt hw.2⟩

theorem between_mul_iff {closed : Bool} {low high v c : ℚ} (hc : 0 < c) :
    Between closed (low * c) (high * c) (v * c) ↔ Between closed low high v := by
  unfold Between
  rw [mul_le_mul_iff_left₀ hc, mul_le_mul_iff_left₀ hc, mul_lt_mul_iff_left₀ hc,
    mul_lt_mul_iff_left₀ hc]

/-- The value of a decimal. -/
def Decimal.value (d : Decimal) : ℚ := d.digits * 10 ^ d.exponent

/-- A number lies in an interval. -/
def RoundingInterval.Holds (i : RoundingInterval) (v : ℚ) : Prop :=
  Between i.closed (i.low * 2 ^ i.exponent) (i.high * 2 ^ i.exponent) v

theorem RoundingInterval.contains_iff (i : RoundingInterval) (d : Decimal) :
    i.contains d = true ↔ i.Holds d.value := by
  have htwo := (scale2_pos i.exponent).2
  have hten := (scale10_pos d.exponent).2
  have hbelow : ∀ bound : Nat, bound * (scale2 i.exponent).1 * (scale10 d.exponent).2 ≤
      d.digits * (scale10 d.exponent).1 * (scale2 i.exponent).2 ↔
      (bound * 2 ^ i.exponent : ℚ) ≤ d.value := by
    intro bound
    rw [mul_le_mul_iff_div htwo hten, scale2_div, scale10_div, Decimal.value]
  have habove : ∀ bound : Nat, d.digits * (scale10 d.exponent).1 * (scale2 i.exponent).2 ≤
      bound * (scale2 i.exponent).1 * (scale10 d.exponent).2 ↔
      d.value ≤ (bound * 2 ^ i.exponent : ℚ) := by
    intro bound
    rw [mul_le_mul_iff_div hten htwo, scale2_div, scale10_div, Decimal.value]
  rw [contains, Holds, Between]
  cases i.closed with
  | true => simp only [if_true, Bool.and_eq_true, decide_eq_true_iff, hbelow, habove]
  | false =>
    simp only [Bool.false_eq_true, if_false, Bool.and_eq_true, decide_eq_true_iff, ← not_le, hbelow,
      habove]

end Intervals

section Neighbours

/-- Half a unit around a whole number; the ends belong to the even one. -/
def RoundsTo (v : ℚ) (n : Nat) : Prop := Between (n % 2 == 0) (n - 1 / 2) (n + 1 / 2) v

theorem RoundsTo.unique {v : ℚ} {n k : Nat} (hn : RoundsTo v n) (hk : RoundsTo v k) : n = k := by
  wlog hlt : n < k generalizing n k with hwlog
  · rcases Nat.lt_or_eq_of_le (Nat.not_lt.1 hlt) with h | h
    · exact (hwlog hk hn h).symm
    · exact h.symm
  have hstep : (n + 1 : ℚ) ≤ k := by exact_mod_cast hlt
  obtain ⟨-, hhigh⟩ := Between.bounds hn
  obtain ⟨hlow, -⟩ := Between.bounds hk
  -- Only a number in the middle of two neighbours could round to both, and one of them is odd.
  have hnext : k = n + 1 := by
    have heq : (k : ℚ) = n + 1 := by linarith
    exact_mod_cast heq
  unfold RoundsTo Between at hn hk
  split at hn
  next heven =>
    rw [if_neg] at hk
    · linarith [hk.1]
    · rw [beq_iff_eq] at heven ⊢
      omega
  next => linarith [hn.2]

theorem div_eq_add_mod {num den : Nat} (hden : 0 < den) :
    (num / den : ℚ) = (num / den : Nat) + (num % den : Nat) / den := by
  have hdiv : (den * (num / den : Nat) + (num % den : Nat) : ℚ) = num := by
    exact_mod_cast Nat.div_add_mod num den
  rw [← hdiv, add_div, mul_div_cancel_left₀ _ (by exact_mod_cast hden.ne')]

/-- What is left of a division is less than half of the divisor. -/
theorem mod_lt_half_iff {num den : Nat} (hden : 0 < den) :
    2 * (num % den) < den ↔ ((num % den : Nat) / den : ℚ) < 1 / 2 := by
  rw [div_lt_div_iff₀ (by exact_mod_cast hden) two_pos, one_mul, mul_comm]
  exact_mod_cast Iff.rfl

theorem roundsTo_roundDiv {num den : Nat} (hden : 0 < den) :
    RoundsTo (num / den) (roundDiv num den) := by
  have hpos : (0 : ℚ) < den := by exact_mod_cast hden
  have hmod : ((num % den : Nat) / den : ℚ) < 1 := by
    rw [div_lt_one hpos]
    exact_mod_cast Nat.mod_lt num hden
  have hnonneg : (0 : ℚ) ≤ (num % den : Nat) / den := by positivity
  have hhalf : 2 * (num % den) = den ↔ ((num % den : Nat) / den : ℚ) = 1 / 2 := by
    rw [div_eq_div_iff hpos.ne' two_ne_zero, one_mul, mul_comm]
    exact_mod_cast Iff.rfl
  rw [div_eq_add_mod hden, roundDiv, RoundsTo, Between]
  simp only [Bool.or_eq_true, decide_eq_true_iff, Bool.and_eq_true, beq_iff_eq,
    mod_lt_half_iff hden, hhalf]
  generalize num / den = q at *
  generalize ((num % den : Nat) / den : ℚ) = f at *
  by_cases hdown : f < 1 / 2 ∨ f = 1 / 2 ∧ q % 2 = 0
  · rw [if_pos hdown]
    rcases hdown with hf | ⟨hf, heven⟩
    · split <;> constructor <;> linarith
    · rw [if_pos heven]
      constructor <;> linarith
  · rw [if_neg hdown, not_or, not_and, not_lt] at *
    push_cast
    split
    next => constructor <;> linarith
    next hodd =>
      have hne : f ≠ 1 / 2 := fun hf => hdown.2 hf (by omega)
      have hf : 1 / 2 < f := lt_of_le_of_ne hdown.1 hne.symm
      constructor <;> linarith

end Neighbours

section Units

variable {num den : Nat}

/-- The logarithm of a quotient is found from those of its parts, but for one. -/
theorem floorLog2_bounds (hnum : 0 < num) (hden : 0 < den) :
    (2 : ℚ) ^ floorLog2 num den ≤ num / den ∧ (num / den : ℚ) < 2 ^ (floorLog2 num den + 1) := by
  have hpos : (0 : ℚ) < den := by exact_mod_cast hden
  have hnumLow : (2 : ℚ) ^ (num.log2 : Int) ≤ num := by
    exact_mod_cast Nat.log2_self_le hnum.ne'
  have hnumHigh : (num : ℚ) < 2 ^ (num.log2 + 1 : Int) := by
    exact_mod_cast Nat.lt_log2_self
  have hdenLow : (2 : ℚ) ^ (den.log2 : Int) ≤ den := by
    exact_mod_cast Nat.log2_self_le hden.ne'
  have hdenHigh : (den : ℚ) < 2 ^ (den.log2 + 1 : Int) := by
    exact_mod_cast Nat.lt_log2_self
  have hreached : den * (scale2 (num.log2 - den.log2)).1 ≤ num * (scale2 (num.log2 - den.log2)).2 ↔
      (2 : ℚ) ^ (num.log2 - den.log2 : Int) ≤ num / den := by
    rw [← scale2_div, div_le_div_iff₀ (by exact_mod_cast (scale2_pos _).2) hpos, mul_comm den]
    exact_mod_cast Iff.rfl
  have hbelow : (2 : ℚ) ^ (num.log2 - den.log2 - 1 : Int) ≤ num / den := by
    rw [le_div_iff₀ hpos]
    calc (2 : ℚ) ^ (num.log2 - den.log2 - 1 : Int) * den
        ≤ 2 ^ (num.log2 - den.log2 - 1 : Int) * 2 ^ (den.log2 + 1 : Int) := by gcongr
      _ = 2 ^ (num.log2 : Int) := by
        rw [← zpow_add₀ two_ne_zero]
        congr 1
        ring
      _ ≤ num := hnumLow
  have habove : (num / den : ℚ) < 2 ^ (num.log2 - den.log2 + 1 : Int) := by
    rw [div_lt_iff₀ hpos]
    calc (num : ℚ) < 2 ^ (num.log2 + 1 : Int) := hnumHigh
      _ = 2 ^ (num.log2 - den.log2 + 1 : Int) * 2 ^ (den.log2 : Int) := by
        rw [← zpow_add₀ two_ne_zero]
        congr 1
        ring
      _ ≤ 2 ^ (num.log2 - den.log2 + 1 : Int) * den := by gcongr
  rw [floorLog2]
  split
  next h => exact ⟨hreached.1 h, habove⟩
  next h =>
    rw [hreached, not_le] at h
    rw [sub_add_cancel]
    exact ⟨hbelow, h⟩

/-- The exponent of the unit in which a number is rounded: the number has no more than 53 bits in
this unit, and no fewer unless the unit is the finest one. -/
structure Grain (v : ℚ) (q : Int) : Prop where
  least : leastExponent ≤ q
  lt : v < 2 ^ 53 * 2 ^ q
  le : q = leastExponent ∨ 2 ^ 52 * 2 ^ q ≤ v

theorem Grain.unique {v : ℚ} {q q' : Int} (h : Grain v q) (h' : Grain v q') : q = q' := by
  wlog hlt : q < q' generalizing q q' with hwlog
  · rcases lt_or_eq_of_le (not_lt.1 hlt) with hgt | heq
    · exact (hwlog h' h hgt).symm
    · exact heq.symm
  exfalso
  have hleast := h.least
  have hle := h'.le.resolve_left (by omega)
  have hcoarse : (2 : ℚ) ^ 53 * 2 ^ q ≤ 2 ^ 52 * 2 ^ q' := by
    calc (2 : ℚ) ^ 53 * 2 ^ q = 2 ^ 52 * 2 ^ (q + 1) := by
          rw [zpow_add_one₀ two_ne_zero]
          ring
      _ ≤ 2 ^ 52 * 2 ^ q' := by
        gcongr
        · exact one_le_two
        · omega
  linarith [h.lt]

theorem grain_mul_iff {r : ℚ} {q : Int} : Grain (r * 2 ^ q) q ↔
    leastExponent ≤ q ∧ r < 2 ^ 53 ∧ (q = leastExponent ∨ 2 ^ 52 ≤ r) := by
  have hpos : (0 : ℚ) < 2 ^ q := zpow_pos two_pos q
  rw [← mul_lt_mul_iff_left₀ hpos, ← mul_le_mul_iff_left₀ hpos]
  exact ⟨fun h => ⟨h.least, h.lt, h.le⟩, fun h => ⟨h.1, h.2.1, h.2.2⟩⟩

/-- The unit of a quotient is found from its logarithm. -/
theorem grain_floorLog2 (hnum : 0 < num) (hden : 0 < den) :
    Grain (num / den) (max (floorLog2 num den - fractionBits) leastExponent) := by
  obtain ⟨hlow, hhigh⟩ := floorLog2_bounds hnum hden
  have hbits : ∀ k : Nat, (2 : ℚ) ^ k * 2 ^ (floorLog2 num den - fractionBits) =
      2 ^ (floorLog2 num den + k - 52) := by
    intro k
    have hfraction : ((fractionBits : Nat) : Int) = 52 := rfl
    rw [← zpow_natCast, ← zpow_add₀ two_ne_zero, hfraction]
    congr 1
    ring
  refine ⟨le_max_right _ _, ?_, ?_⟩
  · calc (num / den : ℚ) < 2 ^ (floorLog2 num den + 1) := hhigh
      _ = 2 ^ 53 * 2 ^ (floorLog2 num den - fractionBits) := by
        rw [hbits]
        congr 1
        push_cast
        ring
      _ ≤ 2 ^ 53 * 2 ^ max (floorLog2 num den - fractionBits) leastExponent := by
        gcongr
        · exact one_le_two
        · exact le_max_left _ _
  · rcases le_total (floorLog2 num den - fractionBits) leastExponent with h | h
    · exact .inl (max_eq_right h)
    · rw [max_eq_left h, hbits]
      right
      rwa [Nat.cast_ofNat, add_sub_cancel_right]

/-- A quotient is rounded in its unit, and the units and the whole numbers of them are counted
together. -/
theorem nearestBits_spec (hnum : 0 < num) (hden : 0 < den) :
    ∃ (q : Int) (k : Nat), Grain (num / den) q ∧ RoundsTo (num / den / 2 ^ q) k ∧
      nearestBits num den =
        min ((q - leastExponent).toNat * twoTo fractionBits + k) infinityBits := by
  have hbits : nearestBits num den = _ := if_neg (by simpa using hnum.ne')
  refine ⟨_, _, grain_floorLog2 hnum hden, ?_, hbits⟩
  generalize max (floorLog2 num den - fractionBits) leastExponent = q
  obtain ⟨hone, htwo⟩ := scale2_pos q
  have hround := @roundsTo_roundDiv (num * (scale2 q).2) _ (Nat.mul_pos hden hone)
  rw [← scale2_div, div_div_eq_mul_div, div_mul_eq_mul_div, div_div]
  exact_mod_cast hround

end Units

section Doubles

variable {m : Nat} {e : Int}

theorem IsDouble.le (h : IsDouble m e) : (m : ℚ) ≤ 2 ^ 53 - 1 := by
  rw [le_sub_iff_add_le]
  exact_mod_cast h.lt

/-- A double has one unit and one number of units for its bits, except that the least number with
all its bits is also twice as many of the next finer units. -/
theorem bits_eq_iff (h : IsDouble m e) {q : Int} {k : Nat} (hq : leastExponent ≤ q)
    (hk : k ≤ 2 ^ 53) (hlead : q = leastExponent ∨ 2 ^ 52 ≤ k) :
    min ((q - leastExponent).toNat * twoTo fractionBits + k) infinityBits = magnitudeBits m e ↔
      q = e ∧ k = m ∨ q + 1 = e ∧ m = 2 ^ 52 ∧ k = 2 ^ 53 := by
  obtain ⟨hlt, hleast, hgreatest, hleading⟩ := h
  rw [magnitudeBits, infinityBits_eq]
  rw [twoTo_53] at hlt
  simp only [leastExponent, twoTo_fractionBits] at *
  omega

/-- The half below the least number with all its bits is half as wide. -/
def halfBelow (m : Nat) (e : Int) : ℚ := if m = 2 ^ 52 ∧ leastExponent < e then 1 / 4 else 1 / 2

theorem halfBelow_bounds (m : Nat) (e : Int) : 1 / 4 ≤ halfBelow m e ∧ halfBelow m e ≤ 1 / 2 := by
  rw [halfBelow]
  split <;> norm_num

/-- The interval of a double, in its units. -/
theorem RoundingInterval.holds_iff (hm : 0 < m) (r : ℚ) :
    (RoundingInterval.of m e).Holds (r * 2 ^ e) ↔
      Between (m % 2 == 0) (m - halfBelow m e) (m + 1 / 2) r := by
  have hpos : (0 : ℚ) < 2 ^ e := zpow_pos two_pos e
  have hquarter : (2 : ℚ) ^ (e - 2) = 1 / 4 * 2 ^ e := by
    rw [zpow_sub₀ two_ne_zero]
    ring
  have hlow : ((RoundingInterval.of m e).low * 2 ^ (e - 2) : ℚ) = (m - halfBelow m e) * 2 ^ e := by
    have hedge : (m == twoTo fractionBits && decide (e > leastExponent)) = true ↔
        m = 2 ^ 52 ∧ leastExponent < e := by
      rw [Bool.and_eq_true, beq_iff_eq, decide_eq_true_iff]
      rfl
    rw [RoundingInterval.of, halfBelow, hquarter]
    dsimp only
    simp only [hedge]
    split
    · rw [Nat.cast_sub (by omega)]
      push_cast
      ring
    · rw [Nat.cast_sub (by omega)]
      push_cast
      ring
  have hhigh : ((RoundingInterval.of m e).high * 2 ^ (e - 2) : ℚ) = (m + 1 / 2) * 2 ^ e := by
    rw [RoundingInterval.of, hquarter]
    push_cast
    ring
  rw [← between_mul_iff hpos, ← hlow, ← hhigh]
  rfl

/-- In the interval of a double are the numbers that have its unit and round to it, and those that
have the next finer unit and round up to it. -/
theorem between_iff_rounds (h : IsDouble m e) (r : ℚ) :
    Between (m % 2 == 0) (m - halfBelow m e) (m + 1 / 2) r ↔
      Grain (r * 2 ^ e) e ∧ RoundsTo r m ∨
      Grain (r * 2 ^ e) (e - 1) ∧ m = 2 ^ 52 ∧ RoundsTo (2 * r) (2 ^ 53) := by
  have hfiner : r * 2 ^ e = 2 * r * 2 ^ (e - 1) := by
    rw [zpow_sub_one₀ two_ne_zero]
    ring
  have hlt := h.le
  rw [grain_mul_iff, hfiner, grain_mul_iff]
  by_cases hedge : m = 2 ^ 52 ∧ leastExponent < e
  · obtain ⟨rfl, hfine⟩ := hedge
    have hhalf : halfBelow (2 ^ 52) e = 1 / 4 := if_pos ⟨rfl, hfine⟩
    have heven : ∀ n low high v, n % 2 = 0 →
        (Between (n % 2 == 0) low high v ↔ low ≤ v ∧ v ≤ high) := by
      intro n low high v hn
      rw [Between, if_pos (by rw [hn]; rfl)]
    rw [hhalf, RoundsTo, RoundsTo, heven _ _ _ _ rfl, heven _ _ _ _ rfl, heven _ _ _ _ rfl]
    push_cast
    constructor
    · rintro ⟨hlow, hhigh⟩
      -- Below the power of two the unit is half as large, and so is what still rounds up.
      rcases le_or_gt (2 ^ 52) r with hr | hr
      · exact .inl ⟨⟨h.least, by linarith, .inr hr⟩, by linarith, hhigh⟩
      · exact .inr ⟨⟨by omega, by linarith, .inr (by linarith)⟩, trivial, by linarith, by linarith⟩
    · rintro (⟨⟨-, -, hle⟩, -, hhigh⟩ | ⟨-, -, hlow, hhigh⟩)
      · have hr := hle.resolve_left hfine.ne'
        exact ⟨by linarith, hhigh⟩
      · exact ⟨by linarith, by linarith⟩
  · have hhalf : halfBelow m e = 1 / 2 := if_neg hedge
    rw [hhalf]
    constructor
    · intro hr
      obtain ⟨hlow, hhigh⟩ := hr.bounds
      refine .inl ⟨⟨h.least, by linarith, ?_⟩, hr⟩
      by_cases hfinest : e = leastExponent
      · exact .inl hfinest
      · have hlead : 2 ^ 52 ≤ m := h.leading.resolve_right hfinest
        have hfine := lt_of_le_of_ne h.least (Ne.symm hfinest)
        have hnext : 2 ^ 52 < m := lt_of_le_of_ne hlead fun hm => hedge ⟨hm.symm, hfine⟩
        have hnext' : (2 ^ 52 + 1 : ℚ) ≤ m := by exact_mod_cast hnext
        exact .inr (by linarith)
    · rintro (⟨-, hr⟩ | ⟨⟨hleast, -⟩, hm, -⟩)
      · exact hr
      · exact absurd ⟨hm, by omega⟩ hedge

/-- The numbers that round to a double are those of its interval. -/
theorem nearestBits_eq_iff (h : IsDouble m e) (hm : 0 < m) {num den : Nat} (hnum : 0 < num)
    (hden : 0 < den) :
    nearestBits num den = magnitudeBits m e ↔ (RoundingInterval.of m e).Holds (num / den) := by
  obtain ⟨q, k, hgrain, hround, hbits⟩ := nearestBits_spec hnum hden
  generalize (num / den : ℚ) = v at *
  have hunits : ∀ q : Int, v / 2 ^ q * 2 ^ q = v := fun q =>
    div_mul_cancel₀ v (zpow_ne_zero q two_ne_zero)
  have hfiner : v / 2 ^ (e - 1) = 2 * (v / 2 ^ e) := by
    rw [zpow_sub_one₀ two_ne_zero]
    field_simp
  obtain ⟨hleast, hlt, hle⟩ := grain_mul_iff.1 ((hunits q).symm ▸ hgrain)
  obtain ⟨hlow, hhigh⟩ := Between.bounds hround
  have hk : k < 2 ^ 53 + 1 := by
    have hk : (k : ℚ) < 2 ^ 53 + 1 := by linarith
    exact_mod_cast hk
  have hlead : q = leastExponent ∨ 2 ^ 52 < k + 1 := by
    refine hle.imp_right fun hle => ?_
    have hk : (2 ^ 52 : ℚ) < k + 1 := by linarith
    exact_mod_cast hk
  rw [hbits, bits_eq_iff h hleast (Nat.lt_succ_iff.1 hk) (hlead.imp_right Nat.lt_succ_iff.1),
    ← hunits e, RoundingInterval.holds_iff hm, between_iff_rounds h, hunits, ← hfiner]
  constructor
  · rintro (⟨rfl, rfl⟩ | ⟨rfl, rfl, rfl⟩)
    · exact .inl ⟨hgrain, hround⟩
    · rw [add_sub_cancel_right]
      exact .inr ⟨hgrain, rfl, hround⟩
  · rintro (⟨hgrain', hround'⟩ | ⟨hgrain', hm, hround'⟩)
    · obtain rfl := hgrain.unique hgrain'
      exact .inl ⟨rfl, hround.unique hround'⟩
    · obtain rfl := hgrain.unique hgrain'
      exact .inr ⟨sub_add_cancel e 1, hm, hround.unique hround'⟩

end Doubles

section Reading

variable {x : Float} {negative : Bool} {m : Nat} {e : Int}

theorem ofSignBits_eq_finite_iff (hx : decode x = .finite negative m e) {bits : Nat}
    (h : bits ≤ infinityBits) : ofSignBits negative bits = x ↔ bits = magnitudeBits m e := by
  rw [ofSignBits_eq_iff h, (toBits_finite hx).2]
  cases negative with
  | false => exact eq_comm
  | true => exact Nat.add_left_cancel_iff.trans eq_comm

theorem magnitudeBits_lt (h : IsDouble m e) : magnitudeBits m e < infinityBits := by
  obtain ⟨hlt, hleast, hgreatest, -⟩ := h
  rw [magnitudeBits, infinityBits_eq]
  rw [twoTo_53] at hlt
  simp only [leastExponent, twoTo_fractionBits] at *
  omega

theorem nearestBits_le (num den : Nat) : nearestBits num den ≤ infinityBits := by
  rw [nearestBits]
  split
  · exact Nat.zero_le _
  · exact Nat.min_le_right _ _

/-- What rounds to a double other than zero is neither too small nor too large. -/
theorem RoundingInterval.Holds.bounds (h : IsDouble m e) (hm : 0 < m) {v : ℚ}
    (hv : (RoundingInterval.of m e).Holds v) :
    (2 : ℚ) ^ (-1075 : Int) ≤ v ∧ v ≤ 2 ^ (1024 : Int) := by
  have hpos : (0 : ℚ) < 2 ^ e := zpow_pos two_pos e
  obtain ⟨r, rfl⟩ : ∃ r, v = r * 2 ^ e := ⟨v / 2 ^ e, (div_mul_cancel₀ v hpos.ne').symm⟩
  obtain ⟨hlow, hhigh⟩ := Between.bounds ((holds_iff hm r).1 hv)
  obtain ⟨-, hhalf⟩ := halfBelow_bounds m e
  have hone : (1 : ℚ) ≤ m := by exact_mod_cast hm
  have hlt := h.le
  constructor
  · calc (2 : ℚ) ^ (-1075 : Int) = 1 / 2 * 2 ^ leastExponent := by
          rw [leastExponent, show (-1075 : Int) = -1074 - 1 from rfl, zpow_sub_one₀ two_ne_zero]
          ring
      _ ≤ 1 / 2 * 2 ^ e := by
        gcongr
        · exact one_le_two
        · exact h.least
      _ ≤ r * 2 ^ e := by
        gcongr
        linarith
  · calc r * 2 ^ e ≤ 2 ^ 53 * 2 ^ e := by
          gcongr
          linarith
      _ ≤ 2 ^ 53 * 2 ^ (971 : Int) := by
        gcongr
        · exact one_le_two
        · exact h.greatest
      _ = 2 ^ (1024 : Int) := by
        rw [← zpow_natCast, ← zpow_add₀ two_ne_zero]
        rfl

/-- A decimal with a large exponent is large. -/
theorem Decimal.le_value {d : Decimal} {n : Nat} (hd : 0 < d.digits) (hn : (n : Int) ≤ d.exponent) :
    (2 : ℚ) ^ (n : Int) ≤ d.value := by
  have hone : (1 : ℚ) ≤ d.digits := by exact_mod_cast hd
  calc (2 : ℚ) ^ (n : Int) ≤ 10 ^ (n : Int) := by
        rw [zpow_natCast, zpow_natCast]
        gcongr
        norm_num
    _ ≤ 10 ^ d.exponent := by
      gcongr
      norm_num
    _ ≤ d.value := le_mul_of_one_le_left (zpow_nonneg (by norm_num) _) hone

/-- A decimal with an exponent far below zero is small, unless it has many digits. -/
theorem Decimal.value_lt {d : Decimal} {n : Nat}
    (hn : d.exponent + d.digits.log2 + 1 ≤ -(n : Int)) : d.value < 2 ^ (-(n : Int)) := by
  have hdigits : (d.digits : ℚ) < 2 ^ (d.digits.log2 + 1 : Int) := by
    exact_mod_cast Nat.lt_log2_self
  have hpower : (10 : ℚ) ^ d.exponent ≤ 2 ^ d.exponent := by
    obtain ⟨k, hk⟩ : ∃ k : Nat, d.exponent = -(k : Int) := ⟨d.exponent.natAbs, by omega⟩
    rw [hk, zpow_neg, zpow_neg, zpow_natCast, zpow_natCast]
    gcongr
    norm_num
  calc d.value ≤ d.digits * 2 ^ d.exponent := mul_le_mul_of_nonneg_left hpower (Nat.cast_nonneg _)
    _ < 2 ^ (d.digits.log2 + 1 : Int) * 2 ^ d.exponent := by gcongr
    _ = 2 ^ (d.exponent + d.digits.log2 + 1) := by
      rw [← zpow_add₀ two_ne_zero]
      congr 1
      ring
    _ ≤ 2 ^ (-(n : Int)) := by
      gcongr
      exact one_le_two

/-- Zero reads as the zero with its sign. -/
theorem ofDecimal_of_value_eq_zero (hx : decode x = .finite negative 0 e) {d : Decimal}
    (hd : d.value = 0) : ofDecimal negative d.digits d.exponent = x := by
  have hdigits : d.digits = 0 := by
    have hten : (10 : ℚ) ^ d.exponent ≠ 0 := zpow_ne_zero _ (by norm_num)
    exact_mod_cast (mul_eq_zero.1 hd).resolve_right hten
  have hleast : e = leastExponent := (toBits_finite hx).1.leading.resolve_left (by decide)
  rw [hdigits, ofDecimal, if_pos (beq_self_eq_true 0), ofRatio,
    ofSignBits_eq_finite_iff hx (nearestBits_le 0 1), magnitudeBits, hleast, Int.sub_self]
  rfl

/-- A decimal reads as a double just if it lies in the interval of the double. -/
theorem ofDecimal_eq_iff (hx : decode x = .finite negative m e) (hm : 0 < m) (d : Decimal) :
    ofDecimal negative d.digits d.exponent = x ↔ (RoundingInterval.of m e).Holds d.value := by
  have hdouble := (toBits_finite hx).1
  have hzero : ofRatio negative 0 1 ≠ x := by
    have hpos : 0 < magnitudeBits m e := Nat.add_pos_right _ hm
    rw [ne_eq, ofRatio, ofSignBits_eq_finite_iff hx (nearestBits_le 0 1)]
    exact hpos.ne
  have hsmaller : d.value < 2 ^ (-1075 : Int) → ¬ (RoundingInterval.of m e).Holds d.value :=
    fun hlt hv => hlt.not_ge (hv.bounds hdouble hm).1
  rw [ofDecimal]
  split
  next hdigits =>
    have hvalue : d.value = 0 := by rw [Decimal.value, eq_of_beq hdigits, Nat.cast_zero, zero_mul]
    refine iff_of_false hzero (hsmaller ?_)
    rw [hvalue]
    exact zpow_pos two_pos _
  next hdigits =>
    have hpos : 0 < d.digits := by simpa [Nat.pos_iff_ne_zero] using hdigits
    dsimp only
    split
    next hlarge =>
      have hvalue := @Decimal.le_value d 1101 hpos hlarge
      have hlarger : (2 : ℚ) ^ (1024 : Int) < 2 ^ ((1101 : Nat) : Int) :=
        zpow_lt_zpow_right₀ one_lt_two (by decide)
      refine iff_of_false ?_ fun hv => ?_
      · rw [infinite, ofSignBits_eq_finite_iff hx le_rfl]
        exact (magnitudeBits_lt hdouble).ne'
      · exact (hlarger.trans_le hvalue).not_ge (hv.bounds hdouble hm).2
    next =>
      split
      next hsmall =>
        have hvalue := @Decimal.value_lt d 1199 (by push_cast; omega)
        have hle : (2 : ℚ) ^ (-((1199 : Nat) : Int)) ≤ 2 ^ (-1075 : Int) :=
          zpow_le_zpow_right₀ one_le_two (by decide)
        exact iff_of_false hzero (hsmaller (hvalue.trans_le hle))
      next =>
        obtain ⟨hone, hten⟩ := scale10_pos d.exponent
        rw [ofRatio, ofSignBits_eq_finite_iff hx (nearestBits_le _ _),
          nearestBits_eq_iff hdouble hm (Nat.mul_pos hpos hone) hten, Decimal.value, ← scale10_div,
          ← mul_div_assoc]
        push_cast
        rfl

end Reading

end LineScript.Number
