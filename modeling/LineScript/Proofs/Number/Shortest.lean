import LineScript.Proofs.Number.Rounding

/-!
# The shortest decimal of a double

Of the multiples of a power of ten, the two neighbours of a value are the nearest below and above.
Main statement: the decimal that is found reads as the double, none with fewer digits does, and none
with as many is nearer to the exact value.
-/

namespace LineScript.Number

section Lengths

theorem decimalLength_pos (n : Nat) : 0 < decimalLength n := Nat.length_toDigits_pos

theorem decimalLength_le_iff {n k : Nat} : decimalLength n ≤ k + 1 ↔ n < tenTo (k + 1) :=
  Nat.length_toDigits_le_iff (by decide) k.succ_pos

theorem tenTo_le_of_length {n k : Nat} (hn : 0 < n) (h : k < decimalLength n) : tenTo k ≤ n := by
  cases k with
  | zero => exact hn
  | succ k => exact Nat.not_lt.1 (mt decimalLength_le_iff.2 (Nat.not_le.2 h))

theorem cast_tenTo (k : Nat) : (tenTo k : ℚ) = 10 ^ (k : Int) := by
  rw [zpow_natCast]
  exact_mod_cast rfl

/-- The exponent of the leading digit of a quotient. -/
theorem floorLog10_bounds {num den : Nat} (hnum : 0 < num) (hden : 0 < den) :
    (10 : ℚ) ^ floorLog10 num den ≤ num / den ∧
      (num / den : ℚ) < 10 ^ (floorLog10 num den + 1) := by
  have hpos : (0 : ℚ) < den := by exact_mod_cast hden
  rw [floorLog10]
  split
  next hle =>
    obtain ⟨k, hk⟩ := Nat.exists_eq_succ_of_ne_zero (decimalLength_pos (num / den)).ne'
    have hlow : tenTo k ≤ num / den := tenTo_le_of_length (Nat.div_pos hle hden) (by omega)
    have hhigh : num / den < tenTo (k + 1) := decimalLength_le_iff.1 hk.le
    rw [Nat.le_div_iff_mul_le hden] at hlow
    rw [Nat.div_lt_iff_lt_mul hden] at hhigh
    have hplace : ((decimalLength (num / den) : Nat) : Int) - 1 = (k : Int) := by omega
    rw [hplace, le_div_iff₀ hpos, div_lt_iff₀ hpos, ← cast_tenTo, ← Nat.cast_succ, ← cast_tenTo]
    exact ⟨by exact_mod_cast hlow, by exact_mod_cast hhigh⟩
  next hlt =>
    have hless : num ≤ den - 1 := by omega
    obtain ⟨k, hk⟩ := Nat.exists_eq_succ_of_ne_zero (decimalLength_pos ((den - 1) / num)).ne'
    have hlow : tenTo k ≤ (den - 1) / num :=
      tenTo_le_of_length (Nat.div_pos hless hnum) (by omega)
    have hhigh : (den - 1) / num < tenTo (k + 1) := decimalLength_le_iff.1 hk.le
    rw [Nat.le_div_iff_mul_le hnum] at hlow
    rw [Nat.div_lt_iff_lt_mul hnum] at hhigh
    have hlow' : tenTo k * num < den := by omega
    have hhigh' : den ≤ tenTo (k + 1) * num := by omega
    have hplace : -((decimalLength ((den - 1) / num) : Nat) : Int) + 1 = -(k : Int) := by omega
    have hten : ∀ k : Nat, (0 : ℚ) < tenTo k := fun k => by exact_mod_cast tenTo_pos k
    rw [hplace, hk, zpow_neg, zpow_neg, ← cast_tenTo, ← cast_tenTo, le_div_iff₀ hpos,
      div_lt_iff₀ hpos, inv_mul_le_iff₀ (hten _), lt_inv_mul_iff₀ (hten _)]
    exact ⟨by exact_mod_cast hhigh', by exact_mod_cast hlow'⟩

end Lengths

section Grids

variable {num den : Nat} {g : Int} {i : RoundingInterval}

/-- How often a power of ten goes into a quotient. -/
def floorAt (num den : Nat) (g : Int) : Nat := num * (scale10 g).2 / (den * (scale10 g).1)

/-- What is left, in multiples of the power of ten. -/
def restAt (num den : Nat) (g : Int) : ℚ :=
  ((num * (scale10 g).2 % (den * (scale10 g).1) : Nat) : ℚ) / ((den * (scale10 g).1 : Nat) : ℚ)

theorem restAt_bounds (hden : 0 < den) (num : Nat) (g : Int) :
    0 ≤ restAt num den g ∧ restAt num den g < 1 := by
  have hpos : 0 < den * (scale10 g).1 := Nat.mul_pos hden (scale10_pos g).1
  rw [restAt, div_lt_one (by exact_mod_cast hpos)]
  exact ⟨by positivity, by exact_mod_cast Nat.mod_lt _ hpos⟩

theorem floorAt_add_restAt (hden : 0 < den) (num : Nat) (g : Int) :
    (num / den : ℚ) = (floorAt num den g + restAt num den g) * 10 ^ g := by
  obtain ⟨hone, hten⟩ := scale10_pos g
  rw [floorAt, restAt, ← div_eq_add_mod (Nat.mul_pos hden hone), ← scale10_div]
  push_cast
  field_simp

/-- A neighbour is taken if it rounds to the double, and the other one does not or is not nearer; of
two that are as near it is the upper one. -/
theorem nearestInside_eq_some_iff (hden : 0 < den) {c : Decimal} :
    nearestInside num den i g = some c ↔
      c = ⟨floorAt num den g, g⟩ ∧ i.Holds (floorAt num den g * 10 ^ g) ∧
        (i.Holds ((floorAt num den g + 1) * 10 ^ g) → restAt num den g < 1 / 2) ∨
      c = ⟨floorAt num den g + 1, g⟩ ∧ i.Holds ((floorAt num den g + 1) * 10 ^ g) ∧
        (i.Holds (floorAt num den g * 10 ^ g) → ¬ restAt num den g < 1 / 2) := by
  have hpos : 0 < den * (scale10 g).1 := Nat.mul_pos hden (scale10_pos g).1
  have hnear : 2 * (num * (scale10 g).2 % (den * (scale10 g).1)) < den * (scale10 g).1 ↔
      restAt num den g < 1 / 2 := mod_lt_half_iff hpos
  have hlower : i.contains ⟨floorAt num den g, g⟩ = true ↔ i.Holds (floorAt num den g * 10 ^ g) :=
    i.contains_iff _
  have hupper : i.contains ⟨floorAt num den g + 1, g⟩ = true ↔
      i.Holds ((floorAt num den g + 1) * 10 ^ g) := by
    rw [i.contains_iff, Decimal.value]
    push_cast
    rfl
  rw [← hlower, ← hupper, ← hnear, nearestInside, floorAt]
  split
  next hlow hhigh =>
    split
    next hless => simp [hlow, hhigh, hless, eq_comm]
    next hless => simp [hlow, hhigh, hless, eq_comm]
  next hlow hhigh => simp [hlow, hhigh, eq_comm]
  next hlow hhigh => simp [hlow, hhigh, eq_comm]
  next hlow hhigh => simp [hlow, hhigh]

theorem nearestInside_eq_some (hden : 0 < den) {c : Decimal}
    (h : nearestInside num den i g = some c) :
    i.Holds c.value ∧ c.digits ≤ floorAt num den g + 1 := by
  rcases (nearestInside_eq_some_iff hden).1 h with ⟨rfl, hlower, -⟩ | ⟨rfl, hupper, -⟩
  · exact ⟨hlower, Nat.le_succ _⟩
  · rw [Decimal.value]
    push_cast
    exact ⟨hupper, le_rfl⟩

/-- If a number rounds to the same double as the value, and a neighbour of the value is not beyond
it, then a neighbour is found that is at least as near. -/
theorem exists_nearestInside (hden : 0 < den) (hv : i.Holds (num / den)) {u : ℚ} (hu : i.Holds u)
    (hbeyond : u ≤ floorAt num den g * 10 ^ g ∨ (floorAt num den g + 1) * 10 ^ g ≤ u) :
    ∃ c, nearestInside num den i g = some c ∧ |c.value - num / den| ≤ |u - num / den| := by
  obtain ⟨hrest, hlt⟩ := restAt_bounds hden num g
  have hten : (0 : ℚ) < 10 ^ g := zpow_pos (by norm_num) g
  have hvalue := floorAt_add_restAt hden num g
  have hbelow : |Decimal.value ⟨floorAt num den g, g⟩ - num / den| = restAt num den g * 10 ^ g := by
    rw [hvalue, Decimal.value, ← sub_mul, sub_add_cancel_left, neg_mul, abs_neg,
      abs_of_nonneg (mul_nonneg hrest hten.le)]
  have habove : |Decimal.value ⟨floorAt num den g + 1, g⟩ - num / den| =
      (1 - restAt num den g) * 10 ^ g := by
    rw [hvalue, Decimal.value, ← sub_mul]
    push_cast
    rw [add_sub_add_left_eq_sub, abs_of_nonneg (mul_nonneg (sub_nonneg.2 hlt.le) hten.le)]
  have hlow : (floorAt num den g * 10 ^ g : ℚ) ≤ num / den := by
    rw [hvalue]
    gcongr
    exact le_add_of_nonneg_right hrest
  have hhigh : (num / den : ℚ) ≤ (floorAt num den g + 1) * 10 ^ g := by
    rw [hvalue]
    gcongr
  simp only [nearestInside_eq_some_iff hden]
  -- The neighbour on the same side lies between the number and the value, so it rounds to the
  -- double too; it is taken, or the other one is, which is no farther then.
  rcases hbeyond with hbeyond | hbeyond
  · have hlower := hu.convex hv hbeyond hlow
    have hfar : restAt num den g * 10 ^ g ≤ |u - num / den| := by
      rw [abs_sub_comm]
      exact le_trans (by linarith) (le_abs_self _)
    by_cases hnear : i.Holds ((floorAt num den g + 1) * 10 ^ g) → restAt num den g < 1 / 2
    · exact ⟨_, .inl ⟨rfl, hlower, hnear⟩, hbelow.trans_le hfar⟩
    · obtain ⟨hupper, hhalf⟩ := Classical.not_imp.1 hnear
      have hnearer : (1 - restAt num den g) * 10 ^ g ≤ restAt num den g * 10 ^ g := by
        gcongr
        linarith
      exact ⟨_, .inr ⟨rfl, hupper, fun _ => hhalf⟩, habove.trans_le (hnearer.trans hfar)⟩
  · have hupper := hv.convex hu hhigh hbeyond
    have hfar : (1 - restAt num den g) * 10 ^ g ≤ |u - num / den| :=
      le_trans (by linarith) (le_abs_self _)
    by_cases hnear : i.Holds (floorAt num den g * 10 ^ g) → ¬ restAt num den g < 1 / 2
    · exact ⟨_, .inr ⟨rfl, hupper, hnear⟩, habove.trans_le hfar⟩
    · obtain ⟨hlower, hhalf⟩ := Classical.not_imp.1 hnear
      have hhalf := not_not.1 hhalf
      have hnearer : restAt num den g * 10 ^ g ≤ (1 - restAt num den g) * 10 ^ g := by
        gcongr
        linarith
      exact ⟨_, .inl ⟨rfl, hlower, fun _ => hhalf⟩, hbelow.trans_le (hnearer.trans hfar)⟩

variable {top : Int} {k : Nat}

theorem tenTo_mul_zpow (top : Int) (k : Nat) : (tenTo k * 10 ^ (top - k) : ℚ) = 10 ^ top := by
  rw [cast_tenTo, ← zpow_add₀ (by norm_num), add_sub_cancel]

theorem tenTo_le_floorAt (hden : 0 < den) (htop : (10 : ℚ) ^ top ≤ num / den) :
    tenTo k ≤ floorAt num den (top - k) := by
  obtain ⟨-, hlt⟩ := restAt_bounds hden num (top - k)
  have hten : (0 : ℚ) < 10 ^ (top - k) := zpow_pos (by norm_num) _
  rw [floorAt_add_restAt hden num (top - k), ← tenTo_mul_zpow top k,
    mul_le_mul_iff_left₀ hten] at htop
  have hless : (tenTo k : ℚ) < floorAt num den (top - k) + 1 := by linarith
  exact Nat.lt_succ_iff.1 (by exact_mod_cast hless)

theorem floorAt_lt_tenTo (hden : 0 < den) (htop : (num / den : ℚ) < 10 ^ (top + 1)) :
    floorAt num den (top - k) < tenTo (k + 1) := by
  obtain ⟨hrest, -⟩ := restAt_bounds hden num (top - k)
  have hten : (0 : ℚ) < 10 ^ (top - k) := zpow_pos (by norm_num) _
  have hplace : top - k = top + 1 - ((k + 1 : Nat) : Int) := by omega
  rw [floorAt_add_restAt hden num (top - k), ← tenTo_mul_zpow (top + 1) (k + 1), ← hplace,
    mul_lt_mul_iff_left₀ hten] at htop
  have hless : (floorAt num den (top - k) : ℚ) < tenTo (k + 1) := by linarith
  exact_mod_cast hless

/-- No decimal of so few digits lies between the two neighbours. -/
theorem beyond_neighbours (hden : 0 < den) (htop : (10 : ℚ) ^ top ≤ num / den) {d : Decimal}
    (hlength : decimalLength d.digits ≤ k + 1) :
    d.value ≤ floorAt num den (top - k) * 10 ^ (top - k) ∨
      (floorAt num den (top - k) + 1) * 10 ^ (top - k) ≤ d.value := by
  have hten : (0 : ℚ) < 10 ^ (top - k) := zpow_pos (by norm_num) _
  rcases lt_or_ge d.exponent (top - k) with hfine | hcoarse
  · -- A decimal on a finer grid has too few digits to reach the leading digit of the value.
    left
    have hdigits : (d.digits : ℚ) ≤ tenTo (k + 1) := by
      exact_mod_cast (decimalLength_le_iff.1 hlength).le
    have hfloor : (tenTo k : ℚ) ≤ floorAt num den (top - k) := by
      exact_mod_cast tenTo_le_floorAt hden htop
    calc d.value ≤ tenTo (k + 1) * 10 ^ (top - ((k + 1 : Nat) : Int)) := by
          rw [Decimal.value]
          gcongr
          · norm_num
          · omega
      _ = tenTo k * 10 ^ (top - k) := by rw [tenTo_mul_zpow, tenTo_mul_zpow]
      _ ≤ floorAt num den (top - k) * 10 ^ (top - k) := by gcongr
  · -- Any other is a multiple of the power of ten.
    obtain ⟨n, hn⟩ : ∃ n : Nat, d.value = n * 10 ^ (top - k) := by
      obtain ⟨j, hj⟩ := Int.le.dest hcoarse
      refine ⟨d.digits * tenTo j, ?_⟩
      rw [Decimal.value, ← hj, zpow_add₀ (by norm_num), ← cast_tenTo]
      push_cast
      ring
    rw [hn, mul_le_mul_iff_left₀ hten, mul_le_mul_iff_left₀ hten]
    rcases Nat.lt_or_ge (floorAt num den (top - k)) n with h | h
    · exact .inr (by exact_mod_cast h)
    · exact .inl (by exact_mod_cast h)

end Grids

section Zeros

theorem Decimal.value_div_ten {d : Decimal} (h : d.digits % 10 = 0) :
    Decimal.value ⟨d.digits / 10, d.exponent + 1⟩ = d.value := by
  have hdigits : (d.digits : ℚ) = (d.digits / 10 : Nat) * 10 := by
    exact_mod_cast (Nat.div_mul_cancel (Nat.dvd_of_mod_eq_zero h)).symm
  rw [value, value, hdigits, zpow_add_one₀ (by norm_num)]
  ring

theorem Decimal.value_normalize (d : Decimal) (steps : Nat) :
    (d.normalize steps).value = d.value := by
  induction steps generalizing d with
  | zero => rfl
  | succ steps ih =>
    rw [normalize]
    split
    next h =>
      rw [Bool.and_eq_true, beq_iff_eq] at h
      rw [ih, value_div_ten h.1]
    · rfl

theorem Decimal.digits_normalize_le (d : Decimal) (steps : Nat) :
    (d.normalize steps).digits ≤ d.digits := by
  induction steps generalizing d with
  | zero => exact le_rfl
  | succ steps ih =>
    rw [normalize]
    split
    · exact (ih _).trans (Nat.div_le_self _ _)
    · exact le_rfl

/-- A power of ten loses a zero, so that it has no more digits than what is less. -/
theorem Decimal.length_normalize {d : Decimal} {k : Nat} (h : d.digits ≤ tenTo (k + 1))
    (steps : Nat) : decimalLength (d.normalize (steps + 1)).digits ≤ k + 1 := by
  rw [decimalLength_le_iff]
  rcases Nat.lt_or_eq_of_le h with hlt | heq
  · exact (d.digits_normalize_le _).trans_lt hlt
  · have hten : d.digits = 10 * tenTo k := heq.trans (tenTo_succ k)
    have hpos := tenTo_pos k
    have hzero : (d.digits % 10 == 0 && d.digits != 0) = true := by
      rw [hten, Nat.mul_mod_right, Bool.and_eq_true, bne_iff_ne]
      exact ⟨rfl, by omega⟩
    rw [normalize, if_pos hzero]
    refine (digits_normalize_le _ _).trans_lt ?_
    rw [← heq]
    exact Nat.div_lt_self (by omega) (by decide)

end Zeros


section Search

variable {x : Float} {negative : Bool} {m : Nat} {e : Int}

theorem findSome?_range_eq_some {α : Type} {f : Nat → Option α} {bound : Nat} {a : α}
    (h : (List.range bound).findSome? f = some a) :
    ∃ k < bound, f k = some a ∧ ∀ j < k, f j = none := by
  induction bound with
  | zero => cases h
  | succ bound ih =>
    rw [List.range_succ, List.findSome?_append] at h
    cases hfound : (List.range bound).findSome? f with
    | none =>
      have hnone := List.findSome?_eq_none_iff.1 hfound
      rw [hfound] at h
      refine ⟨bound, Nat.lt_succ_self bound, ?_, fun j hj => hnone j (List.mem_range.2 hj)⟩
      simpa using h
    | some b =>
      rw [hfound] at h
      obtain ⟨k, hk, hfirst⟩ := ih (hfound.trans h)
      exact ⟨k, hk.trans (Nat.lt_succ_self bound), hfirst⟩

theorem cast_mul_scale2_div (m : Nat) (e : Int) :
    ((m * (scale2 e).1 : Nat) / (scale2 e).2 : ℚ) = m * 2 ^ e := by
  rw [← scale2_div, ← mul_div_assoc]
  push_cast
  rfl

/-- The exact value lies in the interval of its double. -/
theorem RoundingInterval.holds_self (hm : 0 < m) : (RoundingInterval.of m e).Holds (m * 2 ^ e) := by
  obtain ⟨hhalf, -⟩ := halfBelow_bounds m e
  rw [holds_iff hm]
  exact between_of_lt _ (by linarith) (by linarith)

/-- Seventeen digits are enough: a neighbour with as many rounds to the double. -/
theorem holds_neighbour (h : IsDouble m e) (hm : 0 < m) {n : Nat} {f ten : ℚ} (hf : 0 ≤ f)
    (hf' : f < 1) (hten : 0 < ten) (hvalue : (m * 2 ^ e : ℚ) = (n + f) * ten)
    (hfine : 10 ^ 16 * ten ≤ m * 2 ^ e) :
    (RoundingInterval.of m e).Holds (n * ten) ∨
      (RoundingInterval.of m e).Holds ((n + 1) * ten) := by
  have hpos : (0 : ℚ) < 2 ^ e := zpow_pos two_pos e
  obtain ⟨c, rfl⟩ : ∃ c, ten = c * 2 ^ e := ⟨ten / 2 ^ e, (div_mul_cancel₀ ten hpos.ne').symm⟩
  have hc : 0 < c := (mul_pos_iff_of_pos_right hpos).1 hten
  rw [← mul_assoc, mul_le_mul_iff_left₀ hpos] at hfine
  rw [← mul_assoc, mul_left_inj' hpos.ne'] at hvalue
  rw [← mul_assoc, ← mul_assoc, RoundingInterval.holds_iff hm, RoundingInterval.holds_iff hm]
  have hlow : n * c = m - f * c := by linarith
  have hhigh : (n + 1) * c = m + (1 - f) * c := by linarith
  rw [hlow, hhigh]
  have hfc : 0 ≤ f * c := mul_nonneg hf hc.le
  have hfc' : 0 < (1 - f) * c := mul_pos (by linarith) hc
  have hlt := h.le
  by_cases hedge : m = 2 ^ 52 ∧ leastExponent < e
  · right
    have hhalf : halfBelow m e = 1 / 4 := if_pos hedge
    have hm52 : (m : ℚ) = 2 ^ 52 := by exact_mod_cast hedge.1
    rw [hhalf]
    exact between_of_lt _ (by linarith) (by linarith)
  · have hhalf : halfBelow m e = 1 / 2 := if_neg hedge
    rw [hhalf]
    rcases lt_or_ge (f * c) (1 / 2) with hnear | hnear
    · exact .inl (between_of_lt _ (by linarith) (by linarith))
    · exact .inr (between_of_lt _ (by linarith) (by linarith))

/-- A shortest decimal of a double: it reads as the double, no decimal with fewer digits does, and
none with as many is nearer to the exact value. -/
structure IsShortest (x : Float) (negative : Bool) (exact : ℚ) (d : Decimal) : Prop where
  reads : ofDecimal negative d.digits d.exponent = x
  fewest : ∀ d' : Decimal, ofDecimal negative d'.digits d'.exponent = x →
    decimalLength d.digits ≤ decimalLength d'.digits
  nearest : ∀ d' : Decimal, ofDecimal negative d'.digits d'.exponent = x →
    decimalLength d'.digits ≤ decimalLength d.digits → |d.value - exact| ≤ |d'.value - exact|

/-- There are no zeros at the end of a shortest decimal. -/
theorem IsShortest.mod_ten_ne_zero (hx : decode x = .finite negative m e) (hm : 0 < m) {exact : ℚ}
    {d : Decimal} (h : IsShortest x negative exact d) : d.digits % 10 ≠ 0 := by
  intro hzero
  have hholds := (ofDecimal_eq_iff hx hm d).1 h.reads
  have hpos : 0 < d.digits := by
    refine Nat.pos_of_ne_zero fun hdigits => ?_
    have hlow := (hholds.bounds (toBits_finite hx).1 hm).1
    rw [Decimal.value, hdigits, Nat.cast_zero, zero_mul] at hlow
    exact hlow.not_gt (zpow_pos two_pos _)
  rw [← Decimal.value_div_ten hzero] at hholds
  have hfewest := h.fewest ⟨d.digits / 10, d.exponent + 1⟩ ((ofDecimal_eq_iff hx hm _).2 hholds)
  have hlength : decimalLength d.digits = decimalLength (d.digits / 10) + 1 := by
    rw [decimalLength, Nat.toDigits_of_base_le (by decide) (by omega), List.length_append]
    rfl
  dsimp only at hfewest
  omega

/-- The exponent of the leading digit of a double. -/
def topOf (m : Nat) (e : Int) : Int := floorLog10 (m * (scale2 e).1) (scale2 e).2

/-- What is found with so many digits behind the leading one. -/
def tried (m : Nat) (e : Int) (k : Nat) : Option Decimal :=
  nearestInside (m * (scale2 e).1) (scale2 e).2 (RoundingInterval.of m e) (topOf m e - (k : Int))

theorem topOf_bounds (hm : 0 < m) :
    (10 : ℚ) ^ topOf m e ≤ ((m * (scale2 e).1 : Nat) : ℚ) / ((scale2 e).2 : Nat) ∧
      ((m * (scale2 e).1 : Nat) : ℚ) / ((scale2 e).2 : Nat) < 10 ^ (topOf m e + 1) :=
  floorLog10_bounds (Nat.mul_pos hm (scale2_pos e).1) (scale2_pos e).2

theorem holds_quotient (hm : 0 < m) :
    (RoundingInterval.of m e).Holds ((m * (scale2 e).1 : Nat) / (scale2 e).2) := by
  rw [cast_mul_scale2_div]
  exact RoundingInterval.holds_self hm

/-- With as many digits as some decimal has that reads as the double, one is found. -/
theorem exists_tried (hm : 0 < m) {k : Nat} {d : Decimal}
    (hd : (RoundingInterval.of m e).Holds d.value) (hlength : decimalLength d.digits ≤ k + 1) :
    ∃ c, tried m e k = some c ∧ |c.value - m * 2 ^ e| ≤ |d.value - m * 2 ^ e| := by
  have htwo := (scale2_pos e).2
  rw [← cast_mul_scale2_div]
  exact exists_nearestInside htwo (holds_quotient hm) hd
    (beyond_neighbours htwo (topOf_bounds hm).1 hlength)

/-- With seventeen digits one is found. -/
theorem exists_tried_sixteen (h : IsDouble m e) (hm : 0 < m) : ∃ c, tried m e 16 = some c := by
  have htwo := (scale2_pos e).2
  have hlow := (topOf_bounds (e := e) hm).1
  obtain ⟨hrest, hlt⟩ := restAt_bounds htwo (m * (scale2 e).1) (topOf m e - ((16 : Nat) : Int))
  have hsplit := floorAt_add_restAt htwo (m * (scale2 e).1) (topOf m e - ((16 : Nat) : Int))
  rw [cast_mul_scale2_div] at hsplit hlow
  rw [← tenTo_mul_zpow _ 16] at hlow
  rcases holds_neighbour h hm hrest hlt (zpow_pos (by norm_num) _) hsplit hlow with hu | hu
  · obtain ⟨c, hc, -⟩ := exists_nearestInside htwo (holds_quotient hm) hu (.inl le_rfl)
    exact ⟨c, hc⟩
  · obtain ⟨c, hc, -⟩ := exists_nearestInside htwo (holds_quotient hm) hu (.inr le_rfl)
    exact ⟨c, hc⟩

/-- The decimal that is printed is the first that is found, without the zeros at its end. -/
theorem exists_shortest_eq (h : IsDouble m e) (hm : 0 < m) : ∃ (k : Nat) (c : Decimal),
    shortest m e = c.normalize (mostDigits + 1) ∧ tried m e k = some c ∧
      ∀ j < k, tried m e j = none := by
  obtain ⟨c, hc⟩ := exists_tried_sixteen h hm
  obtain ⟨_, -, c, -, hfound⟩ := @exists_findSome?_range _ (tried m e) 16 mostDigits (by decide)
    (Option.isSome_iff_exists.2 ⟨c, hc⟩)
  obtain ⟨k, -, hk, hfirst⟩ := findSome?_range_eq_some hfound
  have hshortest : shortest m e =
      (((List.range mostDigits).findSome? (tried m e)).getD ⟨m * (scale2 e).1, 0⟩).normalize
        (mostDigits + 1) := rfl
  exact ⟨k, c, by rw [hshortest, hfound, Option.getD_some], hk, hfirst⟩

/-- The decimal that is printed is a shortest one. -/
theorem shortest_isShortest (hx : decode x = .finite negative m e) (hm : 0 < m) :
    IsShortest x negative (m * 2 ^ e) (shortest m e) := by
  have htwo := (scale2_pos e).2
  obtain ⟨k, c, hshortest, hfound, hfirst⟩ := exists_shortest_eq (toBits_finite hx).1 hm
  obtain ⟨hholds, hdigits⟩ := nearestInside_eq_some htwo hfound
  have hlength := Decimal.length_normalize
    (hdigits.trans (floorAt_lt_tenTo htwo (topOf_bounds hm).2)) mostDigits
  rw [← hshortest] at hlength
  have hvalue : (shortest m e).value = c.value := by rw [hshortest, Decimal.value_normalize]
  refine ⟨?_, ?_, ?_⟩
  · rw [ofDecimal_eq_iff hx hm, hvalue]
    exact hholds
  · intro d' hd'
    rw [ofDecimal_eq_iff hx hm] at hd'
    by_contra hfewer
    have hpos := decimalLength_pos d'.digits
    obtain ⟨j, rfl⟩ := Nat.exists_eq_succ_of_ne_zero (show k ≠ 0 by omega)
    obtain ⟨c', hc', -⟩ := exists_tried hm (k := j) hd' (by omega)
    rw [hfirst j (Nat.lt_succ_self j)] at hc'
    cases hc'
  · intro d' hd' hfewer
    rw [ofDecimal_eq_iff hx hm] at hd'
    obtain ⟨c', hc', hnear⟩ := exists_tried hm hd' (hfewer.trans hlength)
    rw [hfound] at hc'
    cases hc'
    rw [hvalue]
    exact hnear

end Search

end LineScript.Number
