import LineScript.Number.Arithmetic
import LineScript.Proofs.Number.Rounding
import LineScript.Proofs.Number.Whole

/-!
# Whole numbers as doubles

A whole number with at most 53 bits is a double. Main statements: the double nearest to it stands
for it exactly, and the conversion of doubles to 32-bit integers gives it again, clamped to their
range.
-/

namespace LineScript.Number

variable {x : Float} {negative : Bool} {m n : Nat} {e i : Int}

/-- The double that is made of the bits of a mantissa and an exponent stands for them. -/
theorem decode_ofSignBits (h : IsDouble m e) :
    decode (ofSignBits negative (magnitudeBits m e)) = .finite negative m e := by
  have hbits := (ofSignBits_eq_iff (magnitudeBits_lt h).le).1 (Eq.refl (ofSignBits negative _))
  obtain ⟨sign, k, f, hfields, hf, hk, hdecode⟩ :=
    decode_fields (ofSignBits negative (magnitudeBits m e))
  have hlimit := magnitudeBits_lt h
  obtain ⟨hlt, hleast, hgreatest, hleading⟩ := h
  rw [hdecode]
  rw [hbits] at hfields
  rw [infinityBits_eq] at hlimit
  simp only [magnitudeBits, twoTo_fractionBits, twoTo_53, signBit_eq, leastExponent] at *
  have hsign : sign = negative ∧
      (e - -1074).toNat * 4503599627370496 + m = k * 4503599627370496 + f := by
    cases sign <;> cases negative <;>
      simp only [if_true, if_false, Bool.false_eq_true, true_and, false_and] at hfields ⊢ <;> omega
  obtain ⟨rfl, hmagnitude⟩ := hsign
  rw [if_neg (by omega)]
  split
  next hzero =>
    rw [show f = m by omega, show e = -1074 by omega]
  next hnormal =>
    rw [show f + 4503599627370496 = m by omega, show (k : Int) - 1075 = e by omega]

/-- A positive whole number with at most 53 bits, written with all bits of a mantissa. -/
theorem exists_isDouble (hpos : 0 < n) (hlt : n < twoTo 53) :
    ∃ k : Nat, IsDouble (n * twoTo k) (-(k : Int)) := by
  have hlog : n.log2 ≤ 52 := Nat.lt_succ_iff.1 ((Nat.log2_lt hpos.ne').2 hlt)
  have hlow : 2 ^ n.log2 ≤ n := Nat.log2_self_le hpos.ne'
  have hhigh : n < 2 ^ (n.log2 + 1) := Nat.lt_log2_self
  have hsum : n.log2 + (52 - n.log2) = 52 := by omega
  refine ⟨52 - n.log2, ?_, ?_, ?_, .inl ?_⟩
  · calc n * 2 ^ (52 - n.log2) < 2 ^ (n.log2 + 1) * 2 ^ (52 - n.log2) :=
          Nat.mul_lt_mul_of_pos_right hhigh (twoTo_pos _)
      _ = 2 ^ 53 := by rw [← Nat.pow_add, Nat.add_right_comm, hsum]
  · rw [leastExponent]
    omega
  · omega
  · calc 2 ^ 52 = 2 ^ n.log2 * 2 ^ (52 - n.log2) := by rw [← Nat.pow_add, hsum]
      _ ≤ n * 2 ^ (52 - n.log2) := Nat.mul_le_mul_right _ hlow

theorem ofInt_natCast (n : Nat) : ofInt n = ofNat n := by
  rw [ofInt, Int.natAbs_natCast, decide_eq_false (by omega), ofNat]

/-- The double nearest to a whole number with at most 53 bits stands for it. -/
theorem isWhole_ofInt (hlt : i.natAbs < twoTo 53) : IsWhole (ofInt i) i := by
  rcases Nat.eq_zero_or_pos i.natAbs with hzero | hpos
  · obtain rfl := Int.natAbs_eq_zero.1 hzero
    have hdouble : IsDouble 0 leastExponent := ⟨by decide, Int.le_refl _, by decide, .inr rfl⟩
    have hbits : nearestBits 0 1 = magnitudeBits 0 leastExponent := rfl
    refine ⟨false, 0, leastExponent, ?_, ?_, by decide, by decide⟩
    · rw [ofInt, ofRatio, Int.natAbs_zero, hbits]
      exact decode_ofSignBits hdouble
    · rw [Int.natAbs_zero, Nat.zero_mul, Nat.zero_mul]
  · obtain ⟨k, hdouble⟩ := exists_isDouble hpos hlt
    have hmantissa : 0 < i.natAbs * twoTo k := Nat.mul_pos hpos (twoTo_pos k)
    have hvalue : ((i.natAbs : Nat) : ℚ) / (1 : Nat) =
        (i.natAbs * twoTo k : Nat) * 2 ^ (-(k : Int)) := by
      rw [zpow_neg, zpow_natCast, Nat.cast_one, div_one, Nat.cast_mul, mul_assoc]
      simp [twoTo]
    have hbits : nearestBits i.natAbs 1 = magnitudeBits (i.natAbs * twoTo k) (-(k : Int)) := by
      obtain ⟨hhalf, -⟩ := halfBelow_bounds (i.natAbs * twoTo k) (-(k : Int))
      rw [nearestBits_eq_iff hdouble hmantissa hpos Nat.one_pos, hvalue,
        RoundingInterval.holds_iff hmantissa]
      exact between_of_lt _ (by linarith) (by linarith)
    refine ⟨decide (i < 0), i.natAbs * twoTo k, -(k : Int), ?_, ?_, ?_, ?_⟩
    · rw [ofInt, ofRatio, hbits, decode_ofSignBits hdouble]
    · rw [scale2_neg, Nat.mul_one]
    · exact fun h => decide_eq_true h
    · exact fun h => decide_eq_false (by omega)

/-- The 32-bit integer of a double that stands for a whole number. -/
theorem toInt32_whole (hx : IsWhole x i) : toInt32 x = clampInt32 i := by
  obtain ⟨negative, m, e, hdecode, hvalue, hneg, hpos⟩ := hx
  have hwhole : wholePart m e = i.natAbs := by
    rw [wholePart, hvalue, Nat.mul_div_cancel _ (scale2_pos e).2]
  rw [toInt32, hdecode]
  dsimp only
  rw [hwhole]
  congr 1
  cases negative with
  | true =>
    have hle : i ≤ 0 := Int.not_lt.1 fun h => absurd (hpos h) (by decide)
    rw [if_pos rfl]
    omega
  | false =>
    have hle : 0 ≤ i := Int.not_lt.1 fun h => absurd (hneg h) (by decide)
    rw [if_neg (by decide)]
    omega

theorem clampInt32_eq (hlow : minInt32 ≤ i) (hhigh : i ≤ maxInt32) : clampInt32 i = i := by
  rw [clampInt32, min_eq_left hhigh, max_eq_right hlow]

end LineScript.Number
