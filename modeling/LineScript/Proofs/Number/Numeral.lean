import LineScript.Number.Layout
import LineScript.Proofs.Number.Shortest
import LineScript.World.Inspect

/-!
# Written numbers

A number is written as a sign, digits in front of a point and behind it, and a signed exponent, most
of which can be missing. Main statement: the text of a number reads back as the same number, and
what it denotes is the shortest decimal of the number, with an exponent just if the leading digit is
far from the point.
-/

namespace LineScript.Number

/-- A written number. -/
structure Numeral where
  negative : Bool
  /-- The digits in front of the point. -/
  whole : List Char
  /-- The digits behind the point, which is left out if there are none. -/
  fraction : List Char
  /-- Whether there is a minus in the exponent, and its digits. -/
  exponent : Option (Bool × List Char)
  whole_ne_nil : whole ≠ []
  isDigit_whole : ∀ c ∈ whole, isDigit c = true
  isDigit_fraction : ∀ c ∈ fraction, isDigit c = true
  exponent_ne_nil : ∀ s ∈ exponent, s.2 ≠ []
  isDigit_exponent : ∀ s ∈ exponent, ∀ c ∈ s.2, isDigit c = true

namespace Numeral

/-- The point and the digits behind it. -/
def fractionChars (n : Numeral) : List Char := if n.fraction = [] then [] else '.' :: n.fraction

/-- The mark, the sign and the digits of the exponent. -/
def exponentChars (n : Numeral) : List Char :=
  match n.exponent with
  | none => []
  | some (negative, digits) => 'E' :: (if negative then '-' else '+') :: digits

/-- The characters behind the sign. -/
def unsignedChars (n : Numeral) : List Char := n.whole ++ (n.fractionChars ++ n.exponentChars)

/-- The characters of a numeral, the sign of a negative one in front. -/
def chars (n : Numeral) : List Char :=
  if n.negative then '-' :: n.unsignedChars else n.unsignedChars

/-- The number that the exponent writes. -/
def power (n : Numeral) : Int :=
  match n.exponent with
  | none => 0
  | some (negative, digits) => if negative then -(digitsValue digits : Int) else digitsValue digits

/-- The decimal that is written, but for the sign. -/
def decimal (n : Numeral) : Decimal :=
  ⟨digitsValue (n.whole ++ n.fraction), n.power - (n.fraction.length : Int)⟩

/-- No exponent, and no zeros too many on either side. -/
structure IsPlain (n : Numeral) : Prop where
  exponent : n.exponent = none
  whole : n.whole.head? = some '0' → n.whole = ['0']
  fraction : n.fraction.getLast? ≠ some '0'

/-- One digit in front of the point, no zeros too many behind it, and a signed exponent of two
digits or more. -/
structure IsScientific (n : Numeral) (e : Int) : Prop where
  exponent : ∃ digits, n.exponent = some (decide (e < 0), digits) ∧ 2 ≤ digits.length ∧
    digitsValue digits = e.natAbs
  whole : n.whole.length = 1
  fraction : n.fraction.getLast? ≠ some '0'

end Numeral

section Characters

theorem foldLetter_of_isDigit {c : Char} (h : isDigit c = true) : foldLetter c = c := by
  obtain ⟨-, hhigh⟩ := toNat_of_isDigit h
  rw [foldLetter, if_neg]
  simp only [Bool.and_eq_true, decide_eq_true_eq, Char.le_def, UInt32.le_iff_toNat_le, not_and]
  intro hlow
  have hA : 65 ≤ c.toNat := hlow
  omega

theorem takeWhile_isDigit {cs rest : List Char} (hcs : ∀ c ∈ cs, isDigit c = true)
    (hrest : ∀ c ∈ rest.head?, isDigit c = false) :
    (cs ++ rest).takeWhile isDigit = cs ∧ (cs ++ rest).dropWhile isDigit = rest := by
  rw [List.takeWhile_append_of_pos hcs, List.dropWhile_append_of_pos hcs]
  cases rest with
  | nil => exact ⟨List.append_nil cs, rfl⟩
  | cons c rest =>
    have hc : ¬ isDigit c = true := by
      rw [hrest c rfl]
      exact Bool.false_ne_true
    rw [List.takeWhile_cons_of_neg hc, List.dropWhile_cons_of_neg hc, List.append_nil]
    exact ⟨rfl, rfl⟩

end Characters

section Reading

variable (n : Numeral)

theorem Numeral.exponentChars_head : ∀ c ∈ n.exponentChars.head?, isDigit c = false := by
  rw [exponentChars]
  split
  · exact nofun
  · rintro _ ⟨⟩
    rfl

theorem Numeral.fractionChars_head :
    ∀ c ∈ (n.fractionChars ++ n.exponentChars).head?, isDigit c = false := by
  rw [fractionChars]
  split
  · exact n.exponentChars_head
  · rintro _ ⟨⟩
    rfl

theorem splitFraction_numeral :
    splitFraction (n.fractionChars ++ n.exponentChars) = (n.fraction, n.exponentChars) := by
  rw [Numeral.fractionChars]
  split
  next hnil =>
    rw [List.nil_append, hnil, Numeral.exponentChars]
    split <;> rfl
  next =>
    obtain ⟨htake, hdrop⟩ := takeWhile_isDigit n.isDigit_fraction n.exponentChars_head
    rw [List.cons_append, splitFraction, htake, hdrop]

theorem exponent?_numeral : exponent? n.exponentChars = some n.power := by
  have hne := n.exponent_ne_nil
  have hdigits := n.isDigit_exponent
  rw [Numeral.exponentChars, Numeral.power]
  cases hexponent : n.exponent with
  | none => rfl
  | some s =>
    obtain ⟨negative, digits⟩ := s
    have hempty : digits.isEmpty = false := List.isEmpty_eq_false_iff.2 (hne _ hexponent)
    have hall : digits.all isDigit = true := List.all_eq_true.2 (hdigits _ hexponent)
    cases negative with
    | true => simp [exponent?, splitSign, hempty, hall]
    | false => simp [exponent?, splitSign, hempty, hall]

theorem readDecimal?_numeral (negative : Bool) : readDecimal? negative n.unsignedChars =
    some (ofDecimal negative n.decimal.digits n.decimal.exponent) := by
  obtain ⟨htake, hdrop⟩ := takeWhile_isDigit n.isDigit_whole n.fractionChars_head
  have hempty : n.whole.isEmpty = false := List.isEmpty_eq_false_iff.2 n.whole_ne_nil
  rw [readDecimal?, Numeral.unsignedChars, htake, hdrop, splitFraction_numeral]
  simp only [hempty, Bool.false_and, exponent?_numeral]
  rfl

/-- The first digit tells a number from the words that are read, and from a sign. -/
theorem Numeral.exists_unsignedChars_eq :
    ∃ c cs, n.unsignedChars = c :: cs ∧ isDigit c = true := by
  obtain ⟨c, cs, hwhole⟩ := List.exists_cons_of_ne_nil n.whole_ne_nil
  refine ⟨c, cs ++ (n.fractionChars ++ n.exponentChars), ?_, ?_⟩
  · rw [unsignedChars, hwhole, List.cons_append]
  · exact n.isDigit_whole c (hwhole ▸ List.mem_cons_self)

theorem splitSign_numeral : splitSign n.chars = (n.negative, n.unsignedChars) := by
  obtain ⟨c, cs, hchars, hc⟩ := n.exists_unsignedChars_eq
  rw [Numeral.chars]
  cases n.negative with
  | true => rfl
  | false =>
    rw [if_neg Bool.false_ne_true, hchars]
    unfold splitSign
    split
    next heq =>
      cases heq
      cases hc
    next heq =>
      cases heq
      cases hc
    · rfl

/-- There are no blanks in a written number. -/
theorem Numeral.isBlank_of_mem {c : Char} (hc : c ∈ n.chars) : Text.isBlank c = false := by
  have hunsigned : c ∈ n.unsignedChars → Text.isBlank c = false := by
    rw [unsignedChars, List.mem_append, List.mem_append, fractionChars, exponentChars]
    rintro (hc | hc | hc)
    · exact isBlank_of_isDigit (n.isDigit_whole c hc)
    · split at hc
      · cases hc
      · rcases List.mem_cons.1 hc with rfl | hc
        · rfl
        · exact isBlank_of_isDigit (n.isDigit_fraction c hc)
    · split at hc
      · cases hc
      next negative digits hexponent =>
        rcases List.mem_cons.1 hc with rfl | hc
        · rfl
        rcases List.mem_cons.1 hc with rfl | hc
        · cases negative <;> rfl
        · exact isBlank_of_isDigit (n.isDigit_exponent _ hexponent c hc)
  rw [chars] at hc
  split at hc
  · rcases List.mem_cons.1 hc with rfl | hc
    · rfl
    · exact hunsigned hc
  · exact hunsigned hc

/-- A written number reads as the double nearest to it. -/
theorem read?_numeral {s : String} (hs : s.toList = n.chars) : read? (Text.trim s) =
    some (ofDecimal n.negative n.decimal.digits n.decimal.exponent) := by
  obtain ⟨c, cs, hchars, hc⟩ := n.exists_unsignedChars_eq
  have hword : ∀ d ds, c ≠ d → ((n.unsignedChars.map foldLetter == d :: ds) = false) := by
    intro d ds hne
    rw [hchars, List.map_cons, foldLetter_of_isDigit hc, beq_eq_false_iff_ne]
    exact fun heq => hne (List.cons.inj heq).1
  have hnot : ∀ d, isDigit d = false → c ≠ d := by
    rintro d hd rfl
    rw [hc] at hd
    cases hd
  have hinf : "inf".toList = ['i', 'n', 'f'] := rfl
  have hinfinity : "infinity".toList = ['i', 'n', 'f', 'i', 'n', 'i', 't', 'y'] := rfl
  have hnan : "nan".toList = ['n', 'a', 'n'] := rfl
  rw [trim_eq fun c hc => n.isBlank_of_mem (hs ▸ hc), read?, hs, splitSign_numeral]
  dsimp only
  rw [hinf, hinfinity, hnan, hword _ _ (hnot 'i' rfl), hword _ _ (hnot 'i' rfl),
    hword _ _ (hnot 'n' rfl)]
  exact readDecimal?_numeral n n.negative

end Reading

section Digits

theorem digitsValue_zeros (k : Nat) (cs : List Char) :
    digitsValue (List.replicate k '0' ++ cs) = digitsValue cs := by
  induction k with
  | zero => rfl
  | succ k ih => exact ih

theorem digitChar_ne_zero {d : Nat} (hd : d < 10) (hne : d ≠ 0) : Nat.digitChar d ≠ '0' := by
  have hall : ∀ d < 10, d ≠ 0 → Nat.digitChar d ≠ '0' := by decide
  exact hall d hd hne

/-- A number other than zero does not begin with a zero. -/
theorem head?_toDigits {n : Nat} (hn : 0 < n) : (Nat.toDigits 10 n).head? ≠ some '0' := by
  induction n using Nat.strong_induction_on with
  | _ n ih =>
    rw [Nat.toDigits_eq_if (by decide)]
    split
    next hlt =>
      rw [List.head?_cons, ne_eq, Option.some_inj]
      exact digitChar_ne_zero hlt hn.ne'
    next hge =>
      rw [List.head?_append_of_ne_nil _ Nat.toDigits_ne_nil]
      exact ih _ (Nat.div_lt_self hn (by decide)) (by omega)

theorem getLast?_toDigits {n : Nat} (hn : n % 10 ≠ 0) :
    (Nat.toDigits 10 n).getLast? ≠ some '0' := by
  have hlast := digitChar_ne_zero (Nat.mod_lt n (by decide)) hn
  rw [Nat.toDigits_eq_if (by decide)]
  split
  next hlt =>
    rw [Nat.mod_eq_of_lt hlt] at hlast
    rwa [List.getLast?_singleton, ne_eq, Option.some_inj]
  next => rwa [List.getLast?_concat, ne_eq, Option.some_inj]

/-- The exponent of the leading digit of a decimal. -/
theorem Decimal.leadingExponent_eq_log {d : Decimal} (hd : 0 < d.digits) :
    d.leadingExponent = Int.log 10 d.value := by
  obtain ⟨k, hk⟩ := Nat.exists_eq_succ_of_ne_zero (decimalLength_pos d.digits).ne'
  have hlow : (tenTo k : ℚ) ≤ d.digits := by exact_mod_cast tenTo_le_of_length hd (by omega)
  have hhigh : (d.digits : ℚ) < tenTo (k + 1) := by exact_mod_cast decimalLength_le_iff.1 hk.le
  have hten : (0 : ℚ) < 10 ^ d.exponent := zpow_pos (by norm_num) _
  have hpos : 0 < d.value := mul_pos (by exact_mod_cast hd) hten
  have hplace : d.leadingExponent = d.exponent + (k : Int) := by
    rw [leadingExponent, hk]
    omega
  rw [hplace]
  apply le_antisymm
  · rw [← Int.zpow_le_iff_le_log (by decide) hpos, Nat.cast_ofNat, zpow_add₀ (by norm_num),
      mul_comm, ← cast_tenTo]
    exact mul_le_mul_of_nonneg_right hlow hten.le
  · rw [← Int.lt_add_one_iff, ← Int.lt_zpow_iff_log_lt (by decide) hpos, Nat.cast_ofNat, add_assoc,
      zpow_add₀ (by norm_num), mul_comm, ← Nat.cast_succ, ← cast_tenTo]
    exact mul_lt_mul_of_pos_right hhigh hten

end Digits

section Layouts

/-- A number without an exponent. -/
def Numeral.ofParts (negative : Bool) (whole fraction : List Char) (hne : whole ≠ [])
    (hwhole : ∀ c ∈ whole, isDigit c = true) (hfraction : ∀ c ∈ fraction, isDigit c = true) :
    Numeral :=
  ⟨negative, whole, fraction, none, hne, hwhole, hfraction, nofun, nofun⟩

theorem Numeral.unsignedChars_ofParts {negative : Bool} {whole fraction : List Char}
    (hne : whole ≠ []) (hwhole : ∀ c ∈ whole, isDigit c = true)
    (hfraction : ∀ c ∈ fraction, isDigit c = true) :
    (ofParts negative whole fraction hne hwhole hfraction).unsignedChars =
      whole ++ if fraction = [] then [] else '.' :: fraction := by
  rw [unsignedChars, fractionChars, exponentChars]
  exact congrArg _ (List.append_nil _)

theorem Numeral.decimal_ofParts {negative : Bool} {whole fraction : List Char}
    (hne : whole ≠ []) (hwhole : ∀ c ∈ whole, isDigit c = true)
    (hfraction : ∀ c ∈ fraction, isDigit c = true) :
    (ofParts negative whole fraction hne hwhole hfraction).decimal =
      ⟨digitsValue (whole ++ fraction), -(fraction.length : Int)⟩ := by
  rw [decimal, power]
  exact congrArg _ (Int.zero_sub _)

theorem isDigit_replicate {k : Nat} {c : Char} (hc : c ∈ List.replicate k '0') :
    isDigit c = true := by
  rw [List.eq_of_mem_replicate hc]
  rfl

section Plain

variable (negative : Bool) {ds : List Char} {places : Nat}

/-- The point is among the digits. -/
theorem exists_numeral_among (hds : ∀ c ∈ ds, isDigit c = true) (hfirst : ds.head? ≠ some '0')
    (hlast : ds.getLast? ≠ some '0') (hplaces : 0 < places) (hfew : places < ds.length) :
    ∃ n : Numeral, n.negative = negative ∧
      n.unsignedChars = ds.take (ds.length - places) ++ '.' :: ds.drop (ds.length - places) ∧
      n.decimal = ⟨digitsValue ds, -(places : Int)⟩ ∧ n.IsPlain := by
  have hlength : (ds.drop (ds.length - places)).length = places := by
    rw [List.length_drop]
    omega
  have htake : ds.take (ds.length - places) ≠ [] := by
    rw [← List.length_pos_iff, List.length_take]
    omega
  have hdrop : ds.drop (ds.length - places) ≠ [] := by
    rw [← List.length_pos_iff, hlength]
    exact hplaces
  refine ⟨.ofParts negative _ (ds.drop (ds.length - places)) htake
    (fun c hc => hds c (List.mem_of_mem_take hc)) (fun c hc => hds c (List.mem_of_mem_drop hc)),
    rfl, ?_, ?_, ⟨rfl, ?_, ?_⟩⟩
  · rw [Numeral.unsignedChars_ofParts, if_neg hdrop]
  · rw [Numeral.decimal_ofParts, List.take_append_drop, hlength]
  · intro hzero
    have hhead := @List.head?_take _ ds (ds.length - places)
    rw [if_neg (by omega)] at hhead
    exact absurd (hhead.symm.trans hzero) hfirst
  · have hend := @List.getLast?_drop _ (ds.length - places) ds
    rw [if_neg (by omega)] at hend
    exact fun hzero => hlast (hend.symm.trans hzero)

/-- The point is in front of the digits, and perhaps of zeros that are put there. -/
theorem exists_numeral_before (hds : ∀ c ∈ ds, isDigit c = true) (hne : ds ≠ [])
    (hlast : ds.getLast? ≠ some '0') (hmany : ds.length ≤ places) :
    ∃ n : Numeral, n.negative = negative ∧
      n.unsignedChars = '0' :: '.' :: (List.replicate (places - ds.length) '0' ++ ds) ∧
      n.decimal = ⟨digitsValue ds, -(places : Int)⟩ ∧ n.IsPlain := by
  have hlength : (List.replicate (places - ds.length) '0' ++ ds).length = places := by
    rw [List.length_append, List.length_replicate]
    omega
  have hfraction : ∀ c ∈ List.replicate (places - ds.length) '0' ++ ds, isDigit c = true := by
    intro c hc
    rcases List.mem_append.1 hc with hc | hc
    · exact isDigit_replicate hc
    · exact hds c hc
  refine ⟨.ofParts negative ['0'] _ (List.cons_ne_nil _ _)
    (fun c hc => isDigit_replicate (k := 1) hc) hfraction, rfl, ?_, ?_, ⟨rfl, fun _ => rfl, ?_⟩⟩
  · rw [Numeral.unsignedChars_ofParts, if_neg (List.append_ne_nil_of_right_ne_nil _ hne)]
    rfl
  · have hvalue := (digitsValue_zeros 1 _).trans (digitsValue_zeros (places - ds.length) ds)
    rw [Numeral.decimal_ofParts, hlength]
    exact congrArg (Decimal.mk · _) hvalue
  · rw [Numeral.ofParts, List.getLast?_append_of_ne_nil _ hne]
    exact hlast

/-- A decimal without zeros at its end is written plainly with all its digits. -/
theorem exists_numeral_plain {d : Decimal} (hlast : d.digits % 10 ≠ 0) :
    ∃ n : Numeral, n.negative = negative ∧ n.unsignedChars = (plainText d).toList ∧
      n.decimal.value = d.value ∧ n.IsPlain := by
  have hpos : 0 < d.digits := Nat.pos_of_ne_zero fun hzero => hlast (by rw [hzero])
  have hdigits : ∀ c ∈ Nat.toDigits 10 d.digits, isDigit c = true := fun c hc => isDigit_of_mem hc
  have hne : Nat.toDigits 10 d.digits ≠ [] := Nat.toDigits_ne_nil
  rw [plainText]
  split
  next hwhole =>
    refine ⟨.ofParts negative (Nat.toDigits 10 d.digits ++ List.replicate d.exponent.toNat '0') []
      (List.append_ne_nil_of_left_ne_nil hne _) ?_ (List.forall_mem_nil _), rfl, ?_, ?_,
      ⟨rfl, ?_, (Option.some_ne_none _).symm⟩⟩
    · intro c hc
      rcases List.mem_append.1 hc with hc | hc
      · exact hdigits c hc
      · exact isDigit_replicate hc
    · rw [Numeral.unsignedChars_ofParts, if_pos rfl, List.append_nil, String.toList_ofList]
    · rw [Numeral.decimal_ofParts, Decimal.value, Decimal.value, List.append_nil,
        ← toDigits_mul_tenTo hpos, digitsValue_toDigits, Nat.cast_mul, cast_tenTo,
        Int.toNat_of_nonneg hwhole, List.length_nil, Nat.cast_zero, neg_zero, zpow_zero, mul_one]
    · intro hzero
      exact absurd (List.head?_append_of_ne_nil _ hne ▸ hzero) (head?_toDigits hpos)
  next hpoint =>
    obtain ⟨places, hplaces⟩ : ∃ places : Nat, d.exponent = -(places : Int) :=
      ⟨(-d.exponent).toNat, by omega⟩
    have hdecimal : (⟨digitsValue (Nat.toDigits 10 d.digits), -(places : Int)⟩ : Decimal) = d := by
      rw [digitsValue_toDigits, ← hplaces]
    have hto : (-d.exponent).toNat = places := by omega
    dsimp only
    rw [hto]
    split
    next hfew =>
      obtain ⟨n, hsign, hchars, hvalue, hplain⟩ := exists_numeral_among negative hdigits
        (head?_toDigits hpos) (getLast?_toDigits hlast) (by omega) hfew
      refine ⟨n, hsign, ?_, by rw [hvalue, hdecimal], hplain⟩
      rw [hchars]
      simp
    next hmany =>
      obtain ⟨n, hsign, hchars, hvalue, hplain⟩ := exists_numeral_before negative hdigits hne
        (getLast?_toDigits hlast) (Nat.not_lt.1 hmany)
      refine ⟨n, hsign, ?_, by rw [hvalue, hdecimal], hplain⟩
      rw [hchars]
      simp

end Plain

/-- Zeros in front of a number do not change it. -/
theorem padZeros_digitText (width n : Nat) :
    (∀ c ∈ (padZeros width (digitText n)).toList, isDigit c = true) ∧
      width ≤ (padZeros width (digitText n)).toList.length ∧
      digitsValue (padZeros width (digitText n)).toList = n := by
  have hchars : (padZeros width (digitText n)).toList =
      List.replicate (width - (Nat.toDigits 10 n).length) '0' ++ Nat.toDigits 10 n := by
    simp [padZeros, digitText]
  rw [hchars, digitsValue_zeros, digitsValue_toDigits, List.length_append, List.length_replicate]
  refine ⟨?_, by omega, rfl⟩
  intro c hc
  rcases List.mem_append.1 hc with hc | hc
  · exact isDigit_replicate hc
  · exact isDigit_of_mem hc

/-- A decimal without zeros at its end is written with an exponent and all its digits. -/
theorem exists_numeral_scientific (negative : Bool) {d : Decimal} (hlast : d.digits % 10 ≠ 0) :
    ∃ n : Numeral, n.negative = negative ∧
      n.unsignedChars = (scientificText scriptLayout d).toList ∧
      n.decimal.value = d.value ∧ n.IsScientific d.leadingExponent := by
  obtain ⟨c, cs, hdigits⟩ := List.exists_cons_of_ne_nil (@Nat.toDigits_ne_nil d.digits 10)
  obtain ⟨hc, hcs⟩ := List.forall_mem_cons.1 fun b hb => isDigit_of_mem (hdigits ▸ hb)
  obtain ⟨hall, hlength, hvalue⟩ := padZeros_digitText 2 d.leadingExponent.natAbs
  have hchars : (scientificText scriptLayout d).toList =
      [c] ++ ((if cs = [] then [] else '.' :: cs) ++ ('E' ::
        (if decide (d.leadingExponent < 0) then '-' else '+') ::
          (padZeros 2 (digitText d.leadingExponent.natAbs)).toList)) := by
    rw [scientificText, hdigits]
    by_cases hone : cs = []
    · by_cases hsign : d.leadingExponent < 0 <;> simp [scriptLayout, hone, hsign]
    · by_cases hsign : d.leadingExponent < 0 <;> simp [scriptLayout, hone, hsign]
  have hplaces : decimalLength d.digits = cs.length + 1 := congrArg List.length hdigits
  rw [hchars]
  generalize (padZeros 2 (digitText d.leadingExponent.natAbs)).toList = ds at *
  have hne : ds ≠ [] := by
    rw [← List.length_pos_iff]
    omega
  refine ⟨⟨negative, [c], cs, some (decide (d.leadingExponent < 0), ds), List.cons_ne_nil _ _, ?_,
    hcs, ?_, ?_⟩, rfl, rfl, ?_, ⟨⟨_, rfl, hlength, hvalue⟩, rfl, ?_⟩⟩
  · intro b hb
    rw [List.mem_singleton.1 hb]
    exact hc
  · rintro _ ⟨⟩
    exact hne
  · rintro _ ⟨⟩
    exact hall
  · have hdecimal : (⟨digitsValue (c :: cs), (if decide (d.leadingExponent < 0) = true then
        -(digitsValue ds : Int) else digitsValue ds) - (cs.length : Int)⟩ : Decimal) = d := by
      have hpower : (if decide (d.leadingExponent < 0) = true then -(digitsValue ds : Int)
          else digitsValue ds) - (cs.length : Int) = d.exponent := by
        simp only [hvalue, decide_eq_true_eq]
        have hplace : d.leadingExponent = d.exponent + cs.length := by
          rw [Decimal.leadingExponent, hplaces]
          omega
        split <;> omega
      rw [hpower, ← hdigits, digitsValue_toDigits]
    exact congrArg Decimal.value hdecimal
  · intro hzero
    have hnil : cs ≠ [] := by
      rintro rfl
      cases hzero
    have hend := List.getLast?_append_of_ne_nil [c] hnil
    rw [hzero, List.singleton_append, ← hdigits] at hend
    exact getLast?_toDigits hlast hend

end Layouts

section RoundTrip

variable {x : Float} {negative : Bool} {m : Nat} {e : Int}

theorem text_finite (hx : decode x = .finite negative m e) {n : Numeral}
    (hsign : n.negative = negative) (hn : n.unsignedChars =
      (if m == 0 then "0" else scriptLayout.decimalText (shortest m e)).toList) :
    (text x).toList = n.chars := by
  rw [text, hx, Layout.text, Numeral.chars, hsign, hn]
  cases negative with
  | true => simp
  | false => rfl

/-- What is written for zero. -/
theorem exists_numeral_zero (hx : decode x = .finite negative 0 e) :
    ∃ n : Numeral, (text x).toList = n.chars ∧ n.negative = negative ∧ n.decimal.value = 0 ∧
      n.IsPlain := by
  refine ⟨.ofParts negative ['0'] [] (List.cons_ne_nil _ _)
    (fun c hc => isDigit_replicate (k := 1) hc) (List.forall_mem_nil _), text_finite hx rfl ?_, rfl,
    ?_, ⟨rfl, fun _ => rfl, (Option.some_ne_none _).symm⟩⟩
  · rw [if_pos (beq_self_eq_true 0), Numeral.unsignedChars_ofParts]
    rfl
  · rw [Numeral.decimal_ofParts]
    exact zero_mul _

/-- What is written for any other finite number. -/
theorem exists_numeral (hx : decode x = .finite negative m e) (hm : 0 < m) :
    ∃ (n : Numeral) (d : Decimal), (text x).toList = n.chars ∧ n.negative = negative ∧
      IsShortest x negative (m * 2 ^ e) d ∧ n.decimal.value = d.value ∧
      if Int.log 10 d.value < -5 ∨ 14 < Int.log 10 d.value then n.IsScientific (Int.log 10 d.value)
      else n.IsPlain := by
  have hshortest := shortest_isShortest hx hm
  have hlast := hshortest.mod_ten_ne_zero hx hm
  have hpos : 0 < (shortest m e).digits := Nat.pos_of_ne_zero fun hzero => hlast (by rw [hzero])
  have hlayout : scriptLayout.decimalText (shortest m e) =
      if Int.log 10 (shortest m e).value < -5 ∨ 14 < Int.log 10 (shortest m e).value then
        scientificText scriptLayout (shortest m e) else plainText (shortest m e) := by
    rw [← Decimal.leadingExponent_eq_log hpos, Layout.decimalText]
    simp only [Bool.or_eq_true, decide_eq_true_eq]
    rfl
  have hmagnitude : (if m == 0 then "0" else scriptLayout.decimalText (shortest m e)) =
      scriptLayout.decimalText (shortest m e) := if_neg (by simpa using hm.ne')
  by_cases hfar : Int.log 10 (shortest m e).value < -5 ∨ 14 < Int.log 10 (shortest m e).value
  · obtain ⟨n, hsign, hchars, hvalue, hform⟩ := exists_numeral_scientific negative hlast
    rw [Decimal.leadingExponent_eq_log hpos] at hform
    refine ⟨n, shortest m e, text_finite hx hsign ?_, hsign, hshortest, hvalue, ?_⟩
    · rw [hmagnitude, hlayout, if_pos hfar, hchars]
    · rw [if_pos hfar]
      exact hform
  · obtain ⟨n, hsign, hchars, hvalue, hform⟩ := exists_numeral_plain negative hlast
    refine ⟨n, shortest m e, text_finite hx hsign ?_, hsign, hshortest, hvalue, ?_⟩
    · rw [hmagnitude, hlayout, if_neg hfar, hchars]
    · rw [if_neg hfar]
      exact hform

/-- An infinite number reads back. -/
theorem toNumber_text_infinite (hx : decode x = .infinite negative) :
    World.toNumber (.string (text x)) = x := by
  have hread : World.toNumber (.string (text x)) = infinite negative := by
    rw [text, hx]
    cases negative with
    | true => rfl
    | false => rfl
  rw [hread, infinite, ofSignBits_eq_iff le_rfl]
  exact toBits_infinite hx

/-- A written number reads back if the decimal does that it writes. -/
theorem toNumber_text {n : Numeral} (hn : (text x).toList = n.chars) :
    World.toNumber (.string (text x)) =
      ofDecimal n.negative n.decimal.digits n.decimal.exponent := by
  rw [World.toNumber, read?_numeral n hn, Option.getD_some]

end RoundTrip

/-- The text of a number reads back as this number, to the bit. For a finite number it writes
exactly the shortest decimal: with an exponent if that of the leading digit is below -5 or above 14,
and plainly otherwise. -/
theorem text_lossless {x : Float} (hx : x.isNaN = false) :
    World.toNumber (.string (text x)) = x ∧
    ∀ negative m e, decode x = .finite negative m e →
      ∃ n : Numeral, (text x).toList = n.chars ∧ n.negative = negative ∧
        if m = 0 then n.decimal.value = 0 ∧ n.IsPlain
        else ∃ d, IsShortest x negative (m * 2 ^ e) d ∧ n.decimal.value = d.value ∧
          if Int.log 10 d.value < -5 ∨ 14 < Int.log 10 d.value then
            n.IsScientific (Int.log 10 d.value)
          else n.IsPlain := by
  constructor
  · cases hdecode : decode x with
    | nan => exact absurd hdecode (decode_ne_nan hx)
    | infinite negative => exact toNumber_text_infinite hdecode
    | finite negative m e =>
      rcases Nat.eq_zero_or_pos m with rfl | hm
      · obtain ⟨n, hchars, hsign, hvalue, -⟩ := exists_numeral_zero hdecode
        rw [toNumber_text hchars, hsign]
        exact ofDecimal_of_value_eq_zero hdecode hvalue
      · obtain ⟨n, d, hchars, hsign, hshortest, hvalue, -⟩ := exists_numeral hdecode hm
        rw [toNumber_text hchars, hsign, ofDecimal_eq_iff hdecode hm, hvalue,
          ← ofDecimal_eq_iff hdecode hm]
        exact hshortest.reads
  · intro negative m e hdecode
    rcases Nat.eq_zero_or_pos m with rfl | hm
    · obtain ⟨n, hchars, hsign, hform⟩ := exists_numeral_zero hdecode
      exact ⟨n, hchars, hsign, by rwa [if_pos rfl]⟩
    · obtain ⟨n, d, hchars, hsign, hform⟩ := exists_numeral hdecode hm
      exact ⟨n, hchars, hsign, by rw [if_neg hm.ne']; exact ⟨d, hform⟩⟩

/-- The sixth digit behind the point is the first that is written with an exponent. -/
theorem text_lossless_sixthPlace :
    ∃ x : Float, x.isNaN = false ∧ text x = "9.5E-06" ∧ World.toNumber (.string "9.5E-06") = x := by
  have hx : (Float.ofBits 0x3EE3EC460ED80A18).isNaN = false := by decide
  have htext : text (Float.ofBits 0x3EE3EC460ED80A18) = "9.5E-06" := by decide +kernel
  refine ⟨_, hx, htext, ?_⟩
  rw [← htext]
  exact (text_lossless hx).1

end LineScript.Number
