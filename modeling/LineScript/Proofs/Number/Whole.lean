import LineScript.Number.Arithmetic
import LineScript.Number.Layout
import Mathlib

/-!
# The texts of whole numbers

A double that is a whole number has a text that writes this number, in digits alone or, from fifteen
digits behind the first on, with an exponent. Main statement: an integer is read back from the text
of a whole number just if the number is a 32-bit integer, and then it is that number.
-/

namespace LineScript.Number

/-- A double has a whole number for its value. Zero has two doubles. -/
def IsWhole (x : Float) (i : Int) : Prop :=
  ∃ negative mantissa exponent, decode x = .finite negative mantissa exponent ∧
    mantissa * (scale2 exponent).1 = i.natAbs * (scale2 exponent).2 ∧
    (i < 0 → negative = true) ∧ (0 < i → negative = false)

section Powers

theorem tenTo_pos (n : Nat) : 0 < tenTo n := Nat.pow_pos (by decide)

theorem tenTo_succ (n : Nat) : tenTo (n + 1) = 10 * tenTo n := by
  simp only [tenTo, Nat.pow_eq, Nat.pow_succ]
  ring

theorem twoTo_pos (n : Nat) : 0 < twoTo n := Nat.pow_pos (by decide)

theorem twoTo_succ (n : Nat) : twoTo (n + 1) = 2 * twoTo n := by
  simp only [twoTo, Nat.pow_eq, Nat.pow_succ]
  ring

theorem scale2_neg (k : Nat) : scale2 (-(k : Int)) = (1, twoTo k) := by
  have hzero : (-(k : Int)).toNat = 0 := by omega
  have hk : (-(-(k : Int))).toNat = k := by omega
  rw [scale2, hzero, hk]
  rfl

theorem scale10_nat (k : Nat) : scale10 (k : Int) = (tenTo k, 1) := by
  have hzero : (-(k : Int)).toNat = 0 := by omega
  have hk : (k : Int).toNat = k := by omega
  rw [scale10, hzero, hk]
  rfl

end Powers

section Reading

theorem digitValue?_eq {c : Char} (h : c.isDigit = true) :
    digitValue? c = some (c.toNat - '0'.toNat) := by
  have hrange : '0' ≤ c ∧ c ≤ '9' := by simpa [Char.isDigit, Char.le_def] using h
  rw [digitValue?, if_pos (by simpa using hrange)]

theorem isDigit_of_mem {n : Nat} {c : Char} (h : c ∈ Nat.toDigits 10 n) : isDigit c = true := by
  rw [isDigit, digitValue?_eq (Nat.isDigit_of_mem_toDigits (by decide) (by decide) h)]
  rfl

theorem toNat_of_isDigit {c : Char} (h : isDigit c = true) : 48 ≤ c.toNat ∧ c.toNat ≤ 57 := by
  rw [isDigit, digitValue?, Option.isSome_ite] at h
  simp only [Bool.and_eq_true, decide_eq_true_eq, Char.le_def, UInt32.le_iff_toNat_le] at h
  exact h

theorem isBlank_of_isDigit {c : Char} (h : isDigit c = true) : Text.isBlank c = false := by
  obtain ⟨hlow, hhigh⟩ := toNat_of_isDigit h
  simp only [Text.isBlank, Bool.or_eq_false_iff, Bool.and_eq_false_iff, decide_eq_false_iff_not,
    beq_eq_false_iff_ne]
  omega

/-- The digits of a number write this number. -/
theorem digitsValue_toDigits (n : Nat) : digitsValue (Nat.toDigits 10 n) = n := by
  have hfold : ∀ cs : List Char, (∀ c ∈ cs, c.isDigit = true) → ∀ start,
      cs.foldl (fun n c => n * 10 + (digitValue? c).getD 0) start =
        Nat.ofDigitChars 10 cs start := by
    intro cs hcs
    induction cs with
    | nil => exact fun _ => rfl
    | cons c cs ih =>
      intro start
      obtain ⟨hc, hcs⟩ := List.forall_mem_cons.1 hcs
      rw [List.foldl_cons, digitValue?_eq hc, ih hcs, Nat.mul_comm start]
      rfl
  rw [digitsValue, hfold _ fun c hc => Nat.isDigit_of_mem_toDigits (by decide) (by decide) hc]
  exact Nat.ofDigitChars_ten_toDigits

/-- Zeros behind the digits of a number multiply it by ten. -/
theorem toDigits_mul_tenTo {q : Nat} (hq : 0 < q) (e : Nat) :
    Nat.toDigits 10 (q * tenTo e) = Nat.toDigits 10 q ++ List.replicate e '0' := by
  induction e with
  | zero => simp [tenTo]
  | succ e ih =>
    have hpos : 0 < q * tenTo e := Nat.mul_pos hq (tenTo_pos e)
    have hten : q * tenTo (e + 1) = 10 * (q * tenTo e) + 0 := by
      rw [tenTo_succ, Nat.add_zero, Nat.mul_left_comm]
    have hzero : Nat.toDigits 10 0 = ['0'] := rfl
    rw [hten, ← Nat.toDigits_append_toDigits (by decide) hpos (by decide), ih, hzero,
      List.append_assoc, List.replicate_succ']

theorem splitSign_digits {cs : List Char} (h : ∀ c ∈ cs, isDigit c = true) :
    splitSign cs = (false, cs) := by
  unfold splitSign
  split
  · exact absurd (h '-' List.mem_cons_self) (by decide)
  · exact absurd (h '+' List.mem_cons_self) (by decide)
  · rfl

/-- A text without blanks is trimmed. -/
theorem trim_eq {s : String} (h : ∀ c ∈ s.toList, Text.isBlank c = false) : Text.trim s = s := by
  have hdrop : ∀ cs : List Char, (∀ c ∈ cs, Text.isBlank c = false) →
      cs.dropWhile Text.isBlank = cs := by
    intro cs hcs
    cases cs with
    | nil => rfl
    | cons c cs => exact List.dropWhile_cons_of_neg (by simp [hcs c List.mem_cons_self])
  have htrimmed : Text.trimmed s.toList = s.toList := by
    rw [Text.trimmed, Text.trimStart, hdrop _ h, Text.trimEnd,
      hdrop _ fun c hc => h c (List.mem_reverse.1 hc), List.reverse_reverse]
  rw [Text.trim, htrimmed, String.ofList_toList]

/-- Digits with a sign in front write the integer that they are. -/
theorem readInt?_digits {s : String} {negative : Bool} {n : Nat}
    (hs : s.toList = if negative then '-' :: Nat.toDigits 10 n else Nat.toDigits 10 n) :
    readInt? (Text.trim s) = some (if negative then -(n : Int) else n) := by
  have hdigits : ∀ c ∈ Nat.toDigits 10 n, isDigit c = true := fun c hc => isDigit_of_mem hc
  have hnonempty : (Nat.toDigits 10 n).isEmpty = false := by
    rw [List.isEmpty_eq_false_iff, ← List.length_pos_iff]
    exact Nat.length_toDigits_pos
  have hall : (Nat.toDigits 10 n).all isDigit = true := List.all_eq_true.2 hdigits
  have hsplit : splitSign s.toList = (negative, Nat.toDigits 10 n) := by
    rw [hs]
    cases negative with
    | true => rfl
    | false => exact splitSign_digits hdigits
  rw [trim_eq, readInt?, hsplit]
  · simp [hnonempty, hall, digitsValue_toDigits]
  · intro c hc
    rw [hs] at hc
    split at hc
    · rcases List.mem_cons.1 hc with rfl | hc
      · rfl
      · exact isBlank_of_isDigit (hdigits c hc)
    · exact isBlank_of_isDigit (hdigits c hc)


theorem mem_trimmed {c : Char} (hc : Text.isBlank c = false) {cs : List Char} (h : c ∈ cs) :
    c ∈ Text.trimmed cs := by
  have hdrop : ∀ cs : List Char, c ∈ cs → c ∈ cs.dropWhile Text.isBlank := by
    intro cs h
    induction cs with
    | nil => exact h
    | cons d cs ih =>
      rw [List.dropWhile_cons]
      split
      next hd =>
        rcases List.mem_cons.1 h with rfl | h
        · rw [hc] at hd
          cases hd
        · exact ih h
      · exact h
  exact List.mem_reverse.2 (hdrop _ (List.mem_reverse.2 (hdrop _ h)))

theorem mem_splitSign {c : Char} (hminus : c ≠ '-') (hplus : c ≠ '+') {cs : List Char}
    (h : c ∈ cs) : c ∈ (splitSign cs).2 := by
  unfold splitSign
  split
  · exact List.mem_of_ne_of_mem hminus h
  · exact List.mem_of_ne_of_mem hplus h
  · exact h

/-- A text with a letter writes no integer. -/
theorem readInt?_eq_none {s : String} {c : Char} (hc : c ∈ s.toList)
    (hblank : Text.isBlank c = false) (hdigit : isDigit c = false) (hminus : c ≠ '-')
    (hplus : c ≠ '+') :
    readInt? (Text.trim s) = none := by
  have hmem : c ∈ (splitSign (Text.trim s).toList).2 := by
    rw [Text.trim, String.toList_ofList]
    exact mem_splitSign hminus hplus (mem_trimmed hblank hc)
  rw [readInt?]
  simp only
  rw [if_pos]
  rw [Bool.or_eq_true, Bool.not_eq_true']
  right
  rw [Bool.eq_false_iff]
  intro hall
  have := List.all_eq_true.1 hall c hmem
  rw [hdigit] at this
  cases this

end Reading

section Shortest

/-- The bits of a finite double: its mantissa has a leading bit, unless the double is one of the
finest. -/
theorem decode_finite {x : Float} {negative : Bool} {m : Nat} {e : Int}
    (h : decode x = .finite negative m e) :
    m < twoTo 52 ∧ e = -1074 ∨ twoTo 52 ≤ m := by
  simp only [decode, Binary.ofBits] at h
  split at h
  · split at h <;> cases h
  · split at h
    · cases h
      exact .inl ⟨Nat.mod_lt _ (twoTo_pos 52), rfl⟩
    · cases h
      exact .inr (Nat.le_add_left _ _)

/-- A whole number that has not too many bits is a mantissa with so many bits behind the point. -/
theorem mantissa_of_whole {x : Float} {negative : Bool} {m n : Nat} {e : Int}
    (hx : decode x = .finite negative m e) (hlt : n < twoTo 53)
    (h : m * (scale2 e).1 = n * (scale2 e).2) : ∃ k : Nat, e = -(k : Int) ∧ m = n * twoTo k := by
  have hle : e ≤ 0 := by
    by_contra hpos
    obtain ⟨j, rfl⟩ : ∃ j : Nat, e = (j : Int) + 1 := ⟨(e - 1).toNat, by omega⟩
    rcases decode_finite hx with ⟨-, hfinest⟩ | hm
    · omega
    · have hup : ((j : Int) + 1).toNat = j + 1 := by omega
      have hdown : (-((j : Int) + 1)).toNat = 0 := by omega
      simp only [scale2, hup, hdown] at h
      have hbits : twoTo 53 ≤ m * twoTo (j + 1) := by
        have hone : 1 ≤ twoTo j := twoTo_pos j
        calc twoTo 53 = twoTo 52 * (2 * 1) := by decide
          _ ≤ m * (2 * twoTo j) := Nat.mul_le_mul hm (Nat.mul_le_mul_left 2 hone)
          _ = m * twoTo (j + 1) := by rw [twoTo_succ]
      have hone : n * twoTo 0 = n := Nat.mul_one n
      omega
  obtain ⟨k, rfl⟩ : ∃ k : Nat, e = -(k : Int) := ⟨(-e).toNat, by omega⟩
  rw [scale2_neg, Nat.mul_one] at h
  exact ⟨k, rfl, h⟩

/-- Of the decimals without places behind the point, only the number itself rounds to it. -/
theorem contains_whole {n : Nat} (hn : 0 < n) (k q e : Nat) :
    (RoundingInterval.of (n * twoTo k) (-(k : Int))).contains ⟨q, (e : Int)⟩ = true ↔
      q * tenTo e = n := by
  have hquarters : (-(k : Int) - 2) = -((k + 2 : Nat) : Int) := by omega
  have hunit : twoTo (k + 2) = 4 * twoTo k := by
    rw [twoTo_succ, twoTo_succ, ← Nat.mul_assoc]
  have hpos := twoTo_pos k
  have hvalue : q * tenTo e * (4 * twoTo k) = 4 * (q * tenTo e * twoTo k) := by ring
  simp only [RoundingInterval.contains, RoundingInterval.of, hquarters, scale2_neg, scale10_nat,
    hunit, Nat.mul_one, hvalue]
  generalize hv : q * tenTo e = v
  have hone : n * twoTo k = v * twoTo k ↔ v = n := by
    rw [Nat.mul_left_inj hpos.ne']
    exact eq_comm
  have hlow : n < v → n * twoTo k + 1 ≤ v * twoTo k := fun h => Nat.mul_lt_mul_of_pos_right h hpos
  have hhigh : v < n → v * twoTo k + 1 ≤ n * twoTo k := fun h => Nat.mul_lt_mul_of_pos_right h hpos
  have hmantissa : 0 < n * twoTo k := Nat.mul_pos hn hpos
  generalize n * twoTo k = a at *
  generalize v * twoTo k = b at *
  have hbetween : v = n ↔ a < b + 1 ∧ b < a + 1 := by omega
  split <;> split <;> simp only [Bool.and_eq_true, decide_eq_true_eq] <;> omega

/-- On a grid without places behind the point, the decimal nearest to a whole number that rounds to
it is the number itself, if it lies on the grid. -/
theorem nearestInside_whole {n : Nat} (hn : 0 < n) (k e : Nat) :
    nearestInside (n * twoTo k) (twoTo k) (RoundingInterval.of (n * twoTo k) (-(k : Int))) e =
      if tenTo e ∣ n then some ⟨n / tenTo e, e⟩ else none := by
  have hten := tenTo_pos e
  have hquotient : n * twoTo k * 1 / (twoTo k * tenTo e) = n / tenTo e := by
    rw [Nat.mul_one, Nat.mul_comm n, Nat.mul_div_mul_left _ _ (twoTo_pos k)]
  have habove : ¬ (n / tenTo e + 1) * tenTo e = n := by
    intro h
    have hlt := Nat.lt_mul_div_succ n hten
    rw [Nat.mul_comm] at hlt
    omega
  have hupper : (RoundingInterval.of (n * twoTo k) (-(k : Int))).contains
      ⟨n / tenTo e + 1, e⟩ = false := by
    rw [Bool.eq_false_iff]
    intro h
    exact habove ((contains_whole hn k _ e).1 h)
  simp only [nearestInside, scale10_nat, hquotient, hupper]
  by_cases hdvd : tenTo e ∣ n
  · have hlower := (contains_whole hn k (n / tenTo e) e).2 (Nat.div_mul_cancel hdvd)
    rw [hlower, if_pos hdvd]
  · have hlower : (RoundingInterval.of (n * twoTo k) (-(k : Int))).contains
        ⟨n / tenTo e, e⟩ = false := by
      rw [Bool.eq_false_iff]
      intro h
      exact hdvd ⟨n / tenTo e, by rw [Nat.mul_comm]; exact ((contains_whole hn k _ e).1 h).symm⟩
    rw [hlower, if_neg hdvd]

/-- The first of the numbers below a bound for which there is something is not behind one for which
there is. -/
theorem exists_findSome?_range {α : Type} {f : Nat → Option α} {j bound : Nat} (hj : j < bound)
    (h : (f j).isSome = true) :
    ∃ i ≤ j, ∃ a, f i = some a ∧ (List.range bound).findSome? f = some a := by
  induction bound with
  | zero => exact absurd hj (Nat.not_lt_zero j)
  | succ bound ih =>
    rw [List.range_succ, List.findSome?_append]
    rcases Nat.lt_succ_iff_lt_or_eq.1 hj with hlt | rfl
    · obtain ⟨i, hi, a, ha, hfound⟩ := ih hlt
      exact ⟨i, hi, a, ha, by rw [hfound]; rfl⟩
    · cases hfound : (List.range j).findSome? f with
      | none =>
        obtain ⟨a, ha⟩ := Option.isSome_iff_exists.1 h
        refine ⟨j, Nat.le_refl j, a, ha, ?_⟩
        simp [ha]
      | some a =>
        obtain ⟨i, hi, ha⟩ := List.exists_of_findSome?_eq_some hfound
        exact ⟨i, (List.mem_range.1 hi).le, a, ha, rfl⟩

/-- The leading digit of a whole number has the exponent that the number of digits says. -/
theorem floorLog10_whole {n : Nat} (hn : 0 < n) (k : Nat) :
    floorLog10 (n * twoTo k) (twoTo k) = (decimalLength n : Int) - 1 := by
  have hle : twoTo k ≤ n * twoTo k := Nat.le_mul_of_pos_left _ hn
  rw [floorLog10, if_pos hle, Nat.mul_div_cancel _ (twoTo_pos k)]

/-- Taking zeros away from the end changes nothing of the value. -/
theorem normalize_whole {q e : Nat} (hq : 0 < q) (steps : Nat) :
    ∃ q' e' : Nat, Decimal.normalize ⟨q, (e : Int)⟩ steps = ⟨q', (e' : Int)⟩ ∧ 0 < q' ∧
      q' * tenTo e' = q * tenTo e := by
  induction steps generalizing q e with
  | zero => exact ⟨q, e, rfl, hq, rfl⟩
  | succ steps ih =>
    rw [Decimal.normalize]
    split
    next h =>
      have hten : q % 10 = 0 := by simpa [hq.ne'] using h
      obtain ⟨q', e', hnormal, hpos, hvalue⟩ := ih (q := q / 10) (e := e + 1) (by omega)
      refine ⟨q', e', ?_, hpos, ?_⟩
      · exact hnormal
      · rw [hvalue, tenTo_succ, ← Nat.mul_assoc, Nat.div_mul_cancel (Nat.dvd_of_mod_eq_zero hten)]
    · exact ⟨q, e, rfl, hq, rfl⟩

/-- The shortest decimal of a whole number is the number itself. -/
theorem shortest_whole {n : Nat} (hn : 0 < n) (hlt : n < twoTo 53) (k : Nat) :
    ∃ q e : Nat, shortest (n * twoTo k) (-(k : Int)) = ⟨q, (e : Int)⟩ ∧ 0 < q ∧
      q * tenTo e = n := by
  have hpos : 0 < decimalLength n := Nat.length_toDigits_pos
  have hlength : decimalLength n ≤ 16 :=
    (Nat.length_toDigits_le_iff (by decide) (by decide)).2 (hlt.trans (by decide))
  -- The grid of whole numbers is among those that are tried, and the number lies on it.
  have hplace : ∀ i ≤ decimalLength n - 1, floorLog10 (n * twoTo k) (twoTo k) - (i : Int) =
      ((decimalLength n - 1 - i : Nat) : Int) := by
    intro i hi
    rw [floorLog10_whole hn]
    omega
  have hone : (nearestInside (n * twoTo k) (twoTo k)
      (RoundingInterval.of (n * twoTo k) (-(k : Int)))
      (floorLog10 (n * twoTo k) (twoTo k) - ((decimalLength n - 1 : Nat) : Int))).isSome =
      true := by
    rw [hplace _ (Nat.le_refl _), nearestInside_whole hn, Nat.sub_self,
      if_pos (show tenTo 0 ∣ n from Nat.one_dvd n)]
    rfl
  obtain ⟨i, hi, d, hd, hfound⟩ := exists_findSome?_range
    (f := fun i : Nat => nearestInside (n * twoTo k) (twoTo k)
      (RoundingInterval.of (n * twoTo k) (-(k : Int)))
      (floorLog10 (n * twoTo k) (twoTo k) - (i : Int)))
    (j := decimalLength n - 1)
    (show decimalLength n - 1 < mostDigits from by unfold mostDigits; omega) hone
  rw [hplace i hi, nearestInside_whole hn] at hd
  split at hd
  next hdvd =>
    cases hd
    have hq : 0 < n / tenTo (decimalLength n - 1 - i) :=
      Nat.div_pos (Nat.le_of_dvd hn hdvd) (tenTo_pos _)
    obtain ⟨q, e, hnormal, hpos, hvalue⟩ :=
      normalize_whole (e := decimalLength n - 1 - i) hq (mostDigits + 1)
    refine ⟨q, e, ?_, hpos, hvalue.trans (Nat.div_mul_cancel hdvd)⟩
    rw [← hnormal, shortest]
    simp only [scale2_neg, Nat.mul_one, hfound, Option.getD_some]
  · cases hd

/-- The text of a whole number: its digits, or so many that an exponent is written. -/
theorem decimalText_whole {n : Nat} (hn : 0 < n) (hlt : n < twoTo 53) (k : Nat) :
    let t := scriptLayout.decimalText (shortest (n * twoTo k) (-(k : Int)))
    if n < tenTo 15 then t.toList = Nat.toDigits 10 n
    else 'E' ∈ t.toList ∧ ∃ c ∈ t.toList, isDigit c = true := by
  obtain ⟨q, e, hshortest, hq, hvalue⟩ := shortest_whole hn hlt k
  have hdigits : Nat.toDigits 10 n = Nat.toDigits 10 q ++ List.replicate e '0' := by
    rw [← hvalue, toDigits_mul_tenTo hq]
  have hlength : (Nat.toDigits 10 n).length = decimalLength q + e := by
    rw [hdigits, List.length_append, List.length_replicate]
    rfl
  have hleading : Decimal.leadingExponent ⟨q, (e : Int)⟩ = (decimalLength n : Int) - 1 := by
    simp only [Decimal.leadingExponent, decimalLength, hlength]
    push_cast [decimalLength]
    ring
  have hmany : (Nat.toDigits 10 n).length ≤ 15 ↔ n < tenTo 15 :=
    Nat.length_toDigits_le_iff (by decide) (by decide)
  have hpos : 0 < decimalLength n := Nat.length_toDigits_pos
  dsimp only
  rw [hshortest, Layout.decimalText, hleading]
  have hlayout : (scriptLayout.plainFrom, scriptLayout.plainTo) = (-5, 14) := rfl
  obtain ⟨hfrom, hto⟩ := Prod.mk.inj hlayout
  rw [hfrom, hto]
  by_cases hsmall : n < tenTo 15
  · have hfew : decimalLength n ≤ 15 := hmany.2 hsmall
    have hplain :
        ¬ ((decimalLength n : Int) - 1 < -5 || (14 : Int) < (decimalLength n : Int) - 1) := by
      simp only [Bool.or_eq_true, decide_eq_true_eq]
      omega
    rw [if_pos hsmall, if_neg hplain, plainText, if_pos (Int.natCast_nonneg e), Int.toNat_natCast,
      String.toList_ofList, hdigits]
  · have hfew : ¬ decimalLength n ≤ 15 := fun h => hsmall (hmany.1 h)
    have hscientific :
        ((decimalLength n : Int) - 1 < -5 || (14 : Int) < (decimalLength n : Int) - 1) := by
      simp only [Bool.or_eq_true, decide_eq_true_eq]
      omega
    obtain ⟨c, cs, hfirst⟩ := List.exists_cons_of_length_pos
      (Nat.length_toDigits_pos (b := 10) (n := q))
    have hdigit : isDigit c = true := isDigit_of_mem (hfirst ▸ List.mem_cons_self)
    rw [if_neg hsmall, if_pos hscientific]
    constructor
    · simp [scientificText, scriptLayout]
    · exact ⟨c, by simp [scientificText, hfirst], hdigit⟩

end Shortest

/-- The text of a whole number: its sign and its digits, or so many that an exponent is written. -/
theorem text_whole {x : Float} {i : Int} (hx : IsWhole x i) (hlt : i.natAbs < twoTo 53) :
    if i.natAbs < tenTo 15 then
      ∃ negative : Bool, (if negative then -(i.natAbs : Int) else i.natAbs) = i ∧
        (text x).toList =
          if negative then '-' :: Nat.toDigits 10 i.natAbs else Nat.toDigits 10 i.natAbs
    else 'E' ∈ (text x).toList ∧ ∃ c ∈ (text x).toList, isDigit c = true := by
  obtain ⟨negative, m, e, hdecode, hvalue, hbelow, habove⟩ := hx
  obtain ⟨k, rfl, rfl⟩ := mantissa_of_whole hdecode hlt hvalue
  have hsign : (if negative then -(i.natAbs : Int) else i.natAbs) = i := by
    cases negative with
    | true =>
      have hle : ¬ 0 < i := fun h => by cases habove h
      simp only [if_true]
      omega
    | false =>
      have hge : ¬ i < 0 := fun h => by cases hbelow h
      simp only [Bool.false_eq_true, if_false]
      omega
  rcases Nat.eq_zero_or_pos i.natAbs with hzero | hpos
  · rw [hzero, if_pos (tenTo_pos 15)]
    rw [hzero] at hsign
    refine ⟨negative, hsign, ?_⟩
    rw [text, hdecode, hzero]
    cases negative <;> simp [Layout.text]
  · have hnonzero : ¬ (i.natAbs * twoTo k == 0) = true := by
      rw [beq_iff_eq]
      exact (Nat.mul_pos hpos (twoTo_pos k)).ne'
    have htext := decimalText_whole hpos hlt k
    simp only [text, hdecode, Layout.text, if_neg hnonzero]
    by_cases hsmall : i.natAbs < tenTo 15
    · rw [if_pos hsmall] at htext ⊢
      refine ⟨negative, hsign, ?_⟩
      cases negative with
      | true => simp [htext]
      | false => simp [htext]
    · rw [if_neg hsmall] at htext ⊢
      cases negative with
      | true =>
        obtain ⟨hmark, c, hc, hdigit⟩ := htext
        exact ⟨by simp [hmark], c, by simp [hc], hdigit⟩
      | false => exact htext

/-- The text of a whole number reads as a 32-bit integer just if the number is one, and then it
reads as that number. -/
theorem readInt32?_text {x : Float} {i : Int} (hx : IsWhole x i) (hlt : i.natAbs < twoTo 53) :
    readInt32? (text x) = if minInt32 ≤ i ∧ i ≤ maxInt32 then some i else none := by
  have htext := text_whole hx hlt
  rw [readInt32?]
  by_cases hsmall : i.natAbs < tenTo 15
  · rw [if_pos hsmall] at htext
    obtain ⟨negative, hsign, htext⟩ := htext
    rw [readInt?_digits htext, hsign]
    simp only [Bool.and_eq_true, decide_eq_true_eq]
  · rw [if_neg hsmall] at htext
    have hlarge : ¬ (minInt32 ≤ i ∧ i ≤ maxInt32) := by
      have hten : tenTo 15 = 1000000000000000 := by decide
      simp only [minInt32, maxInt32]
      omega
    rw [readInt?_eq_none htext.1 (by decide) (by decide) (by decide) (by decide), if_neg hlarge]

/-- By a digit the text of a whole number is told from a name. -/
theorem exists_digit_of_whole {x : Float} {i : Int} (hx : IsWhole x i) (hlt : i.natAbs < twoTo 53) :
    ∃ c ∈ (text x).toList, isDigit c = true := by
  have htext := text_whole hx hlt
  split at htext
  · obtain ⟨negative, -, htext⟩ := htext
    obtain ⟨c, hc⟩ := List.exists_mem_of_length_pos
      (Nat.length_toDigits_pos (b := 10) (n := i.natAbs))
    refine ⟨c, ?_, isDigit_of_mem hc⟩
    rw [htext]
    split
    · exact List.mem_cons_of_mem _ hc
    · exact hc
  · exact htext.2

end LineScript.Number
