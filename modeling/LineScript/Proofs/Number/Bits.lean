import LineScript.Number.Binary
import Mathlib

/-!
# Doubles as bits

The bits of a double are a sign, an exponent and a fraction. Main statements: a double has the bits
that its sign, its mantissa and its exponent say, and it is told by them.
-/

namespace LineScript.Number

open Float.Model Float.Model.UnpackedFloat

/-- The mantissas and exponents of finite doubles: a mantissa of all bits, or one with fewer bits
and the least exponent. -/
structure IsDouble (mantissa : Nat) (exponent : Int) : Prop where
  lt : mantissa < twoTo 53
  least : leastExponent ≤ exponent
  greatest : exponent ≤ 971
  leading : twoTo fractionBits ≤ mantissa ∨ exponent = leastExponent

/-- The bits below the sign of a finite double. They count the doubles from zero up. -/
def magnitudeBits (mantissa : Nat) (exponent : Int) : Nat :=
  (exponent - leastExponent).toNat * twoTo fractionBits + mantissa

variable {x : Float} {negative : Bool} {m : Nat} {e : Int}

theorem twoTo_fractionBits : twoTo fractionBits = 4503599627370496 := rfl

theorem twoTo_53 : twoTo 53 = 9007199254740992 := rfl

theorem signBit_eq : signBit = 9223372036854775808 := rfl

theorem infinityBits_eq : infinityBits = 9218868437227405312 := rfl

/-- The bits of a double are a sign, an exponent and a fraction, and say what the double is. -/
theorem decode_fields (x : Float) : ∃ (negative : Bool) (k f : Nat),
    x.toBits.toNat = (if negative then signBit else 0) + k * twoTo fractionBits + f ∧
    f < twoTo fractionBits ∧ k < 2048 ∧
    decode x =
      if k = 2047 then if f = 0 then .infinite negative else .nan
      else if k = 0 then .finite negative f leastExponent
      else .finite negative (f + twoTo fractionBits) ((k : Int) - 1075) := by
  have hlt : x.toBits.toNat < 18446744073709551616 := x.toBits.toNat_lt
  refine ⟨x.toBits.toNat / signBit % 2 == 1, x.toBits.toNat / twoTo fractionBits % 2048,
    x.toBits.toNat % twoTo fractionBits, ?_, Nat.mod_lt _ (by decide), Nat.mod_lt _ (by decide), ?_⟩
  · simp only [beq_iff_eq, twoTo_fractionBits, signBit_eq]
    split <;> omega
  · simp only [decode, Binary.ofBits, beq_iff_eq]

/-- A finite double has the bits that its mantissa and its exponent say. -/
theorem toBits_finite (h : decode x = .finite negative m e) :
    IsDouble m e ∧ x.toBits.toNat = if negative then signBit + magnitudeBits m e else
      magnitudeBits m e := by
  obtain ⟨sign, k, f, hbits, hf, hk, hdecode⟩ := decode_fields x
  rw [hdecode] at h
  rw [hbits]
  simp only [magnitudeBits, twoTo_fractionBits] at *
  split at h
  · split at h <;> cases h
  · split at h
    next hzero =>
      cases h
      refine ⟨⟨?_, Int.le_refl _, by decide, .inr rfl⟩, ?_⟩
      · rw [twoTo_53]
        omega
      · rw [hzero, Int.sub_self]
        split <;> simp
    next hnormal =>
      cases h
      have hplace : ((k : Int) - 1075 - leastExponent).toNat + 1 = k := by
        rw [leastExponent]
        omega
      refine ⟨⟨?_, ?_, ?_, .inl ?_⟩, ?_⟩
      · rw [twoTo_53]
        omega
      · rw [leastExponent]
        omega
      · omega
      · rw [twoTo_fractionBits]
        omega
      · split <;> omega

theorem toBits_infinite (h : decode x = .infinite negative) :
    x.toBits.toNat = if negative then signBit + infinityBits else infinityBits := by
  obtain ⟨sign, k, f, hbits, -, -, hdecode⟩ := decode_fields x
  rw [hdecode] at h
  split at h
  next hinfinite =>
    split at h
    next hzero =>
      cases h
      rw [hbits, hinfinite, hzero]
      cases negative <;> rfl
    · cases h
  · split at h <;> cases h

/-- What is not a number is told by its exponent and its fraction. -/
theorem ofBits_eq_nan_iff (u : UInt64) : Binary.ofBits u.toNat = .nan ↔
    @unpackExponent .binary64 u.toBitVec = -1#_ ∧ @unpackMantissa .binary64 u.toBitVec ≠ 0#_ := by
  have hexponent : (@unpackExponent .binary64 u.toBitVec).toNat =
      u.toNat / twoTo fractionBits % 2048 := by
    rw [unpackExponent, BitVec.toNat_cast, BitVec.extractLsb_toNat, Nat.shiftRight_eq_div_pow]
    rfl
  have hfraction : (@unpackMantissa .binary64 u.toBitVec).toNat = u.toNat % twoTo fractionBits := by
    rw [unpackMantissa, BitVec.toNat_cast, BitVec.extractLsb_toNat, Nat.shiftRight_zero]
    rfl
  have hall : @unpackExponent .binary64 u.toBitVec = -1#_ ↔
      u.toNat / twoTo fractionBits % 2048 = 2047 := by
    rw [← BitVec.toNat_inj, hexponent]
    rfl
  have hzero : @unpackMantissa .binary64 u.toBitVec = 0#_ ↔ u.toNat % twoTo fractionBits = 0 := by
    rw [← BitVec.toNat_inj, hfraction]
    rfl
  rw [hall, ne_eq, hzero, Binary.ofBits]
  simp only [beq_iff_eq]
  split
  · split <;> simp [*]
  · split <;> simp [*]

/-- A number is finite or infinite. -/
theorem decode_ne_nan (h : x.isNaN = false) : decode x ≠ .nan := by
  intro hdecode
  obtain ⟨hexponent, hfraction⟩ := (ofBits_eq_nan_iff x.toBits).1 hdecode
  have hnan : x = Float.nan := by
    rw [← Float.toBits_inj, ← UInt64.toBitVec_inj]
    exact x.toModel.valid.eq_packedNaN hexponent hfraction
  rw [Float.isNaN_eq_decide_eq_nan, decide_eq_false_iff_not] at h
  exact h hnan

/-- There is a double with the bits of any number. -/
theorem toBits_ofBits {u : UInt64} (h : Binary.ofBits u.toNat ≠ .nan) :
    (Float.ofBits u).toBits = u := by
  have hvalid : Format.binary64.Valid u.toBitVec :=
    ⟨fun hexponent hfraction => absurd ((ofBits_eq_nan_iff u).2 ⟨hexponent, hfraction⟩) h⟩
  rw [← UInt64.toBitVec_inj]
  exact pack_unpack_of_valid hvalid

/-- Up to those of infinity, the bits of a double and its sign tell it. -/
theorem ofSignBits_eq_iff {bits : Nat} (h : bits ≤ infinityBits) :
    ofSignBits negative bits = x ↔
      x.toBits.toNat = if negative then signBit + bits else bits := by
  rw [infinityBits_eq] at h
  have hlt : (if negative then signBit + bits else bits) < UInt64.size := by
    rw [signBit_eq, UInt64.size]
    split <;> omega
  have hnumber : Binary.ofBits (UInt64.ofNat (if negative then signBit + bits else bits)).toNat ≠
      .nan := by
    rw [UInt64.toNat_ofNat_of_lt' hlt]
    generalize hb : (if negative then signBit + bits else bits) = b
    have hfraction : b / twoTo fractionBits % 2048 = 2047 → b % twoTo fractionBits = 0 := by
      rw [← hb, signBit_eq, twoTo_fractionBits]
      split <;> omega
    rw [Binary.ofBits]
    simp only [beq_iff_eq]
    split
    next hexponent =>
      rw [if_pos (hfraction hexponent)]
      exact nofun
    · split <;> exact nofun
  rw [← Float.toBits_inj, ofSignBits, toBits_ofBits hnumber, ← UInt64.toNat_inj,
    UInt64.toNat_ofNat_of_lt' hlt, eq_comm]

end LineScript.Number
