import LineScript.Proofs.Builtin.Slicing
import Mathlib

/-!
# Ranges of numbers

The function `range` counts from one bound to the other, by steps in one of the two directions. Main
statement: between 32-bit integers the loop comes to an end, lists the arithmetic progression up to
its second bound, and has no counter that is not a 64-bit integer, although it steps over the bound
by up to a whole step.
-/

namespace LineScript.Run

open Number World Plan

/-- Calling what the table of global functions has under a name, with arguments, gives a value and
leaves a world. -/
def AnswersGlobal (site : Site) (w : World) (receiver : Value) (name : String) (given : List Value)
    (v : Value) (w' : World) : Prop :=
  ∃ f, World.globalTable.lookup name = some (.function f) ∧
    (Task.callFunction f receiver given site).Ends w (.ok v) w'

section Table

variable {site : Site} {w w' : World} {receiver v : Value} {given : List Value}

/-- A global function is in the table under its own name. -/
theorem lookup_globalTable (f : GlobalFunction) :
    World.globalTable.lookup f.name = some (.function (.builtin (.global f))) := by
  cases f with
  | math f => cases f <;> rfl
  | _ => rfl

/-- A global function gives what is written for it, whatever it is called on. -/
theorem answersGlobal_iff (f : GlobalFunction) :
    AnswersGlobal site w receiver f.name given v w' ↔
      (v, w') = w.globalFunction f (argumentsOf (.global f) receiver given) := by
  have hcall : AnswersGlobal site w receiver f.name given v w' ↔
      (Task.callFunction (.builtin (.global f)) receiver given site).Ends w (.ok v) w' := by
    constructor
    · rintro ⟨g, hg, hends⟩
      rw [lookup_globalTable, Option.some_inj] at hg
      cases hg
      exact hends
    · exact fun hends => ⟨_, lookup_globalTable f, hends⟩
  rw [hcall, callBuiltin_ends, Prod.ext_iff]
  change (plain (produce _)).Ends w (.ok v) w' ↔ _
  rw [ends_produce, Except.ok.injEq]
  rfl

end Table

/-- A counter lies before a bound, in the direction of its steps. -/
def Precedes (step i stop : Int) : Prop := (0 < step ∧ i < stop) ∨ (step < 0 ∧ stop < i)

instance (step i stop : Int) : Decidable (Precedes step i stop) :=
  inferInstanceAs (Decidable (_ ∨ _))

/-- A counter that is a 64-bit integer. -/
structure IsInt64 (i : Int) : Prop where
  least : Int64.minValue.toInt ≤ i
  greatest : i ≤ Int64.maxValue.toInt

/-- A loop that counts towards a bound and comes to an end, from the value of its counter on, with
the numbers that it lists. Each value of the counter fits into 64 bits, the one that the loop is
left with included. -/
inductive Counts (stop step : Int) : Int → List Int → Prop
  | done {i : Int} (hword : IsInt64 i) (hstop : ¬ Precedes step i stop) : Counts stop step i []
  | round {i : Int} {is : List Int} (hword : IsInt64 i) (hbefore : Precedes step i stop)
      (hrest : Counts stop step (i + step) is) : Counts stop step i (i :: is)

/-- The arithmetic progression from one integer towards another, which does not belong to it: what
the loop lists, the number at each place, and how many there are. -/
structure Progression (start stop step : Int) (is : List Int) : Prop where
  counts : Counts stop step start is
  getElem?_eq : ∀ k : Nat, is[k]? =
    if Precedes step (start + k * step) stop then some (start + k * step) else none
  length_eq : (is.length : Int) = max 0 ⌈((stop - start : Int) : ℚ) / step⌉
  eq_nil : step = 0 → is = []

section Counting

variable {start stop step i : Int} {is : List Int}

/-- A counter that is before the bound some steps later is before it already. -/
theorem Precedes.of_steps {k : Nat} (h : Precedes step (i + k * step) stop) :
    Precedes step i stop := by
  rcases h with ⟨hstep, hlt⟩ | ⟨hstep, hlt⟩
  · have hpath : 0 ≤ k * step := mul_nonneg (Int.natCast_nonneg k) hstep.le
    exact .inl ⟨hstep, by omega⟩
  · have hpath : k * step ≤ 0 := mul_nonpos_of_nonneg_of_nonpos (Int.natCast_nonneg k) hstep.le
    exact .inr ⟨hstep, by omega⟩

/-- How many steps lead to the bound, as a quotient. -/
theorem precedes_steps_iff (k : Nat) :
    Precedes step (i + k * step) stop ↔ ((k : Int) : ℚ) < ((stop - i : Int) : ℚ) / step := by
  rcases lt_trichotomy step 0 with hstep | rfl | hstep
  · have hcast : (step : ℚ) < 0 := Int.cast_lt_zero.2 hstep
    rw [lt_div_iff_of_neg hcast, ← Int.cast_mul, Int.cast_lt, Precedes]
    omega
  · simp [Precedes, k.cast_nonneg.not_gt]
  · have hcast : (0 : ℚ) < step := Int.cast_pos.2 hstep
    rw [lt_div_iff₀ hcast, ← Int.cast_mul, Int.cast_lt, Precedes]
    omega

theorem Counts.getElem?_eq (h : Counts stop step i is) : ∀ k : Nat, is[k]? =
    if Precedes step (i + k * step) stop then some (i + k * step) else none := by
  induction h with
  | done _ hstop =>
    intro k
    rw [if_neg fun hbefore => hstop hbefore.of_steps, List.getElem?_nil]
  | @round i is _ hbefore _ ih =>
    intro k
    cases k with
    | zero => rw [Nat.cast_zero, zero_mul, add_zero, if_pos hbefore, List.getElem?_cons_zero]
    | succ k =>
      have hnext : i + step + k * step = i + ((k + 1 : Nat) : Int) * step := by
        push_cast
        ring
      rw [List.getElem?_cons_succ, ih, hnext]

theorem Counts.length_eq (h : Counts stop step i is) :
    (is.length : Int) = max 0 ⌈((stop - i : Int) : ℚ) / step⌉ := by
  have hplaces : ∀ k : Nat, k < is.length ↔ (k : Int) < ⌈((stop - i : Int) : ℚ) / step⌉ := by
    intro k
    rw [Int.lt_ceil, ← precedes_steps_iff, ← not_le, ← List.getElem?_eq_none_iff, h.getElem?_eq]
    simp
  generalize ⌈((stop - i : Int) : ℚ) / step⌉ = count at hplaces ⊢
  have hlength := hplaces is.length
  have hcount := hplaces count.toNat
  omega

/-- What a loop lists that comes to an end is the progression. -/
theorem Counts.progression (h : Counts stop step start is) : Progression start stop step is where
  counts := h
  getElem?_eq := h.getElem?_eq
  length_eq := h.length_eq
  eq_nil hstep := by
    cases h with
    | done => rfl
    | round _ hbefore => exact absurd hbefore (by simp [Precedes, hstep])

/-- The two bounds of a range and its steps are 32-bit integers. -/
structure Bounded (start stop step : Int) : Prop where
  start_bounds : minInt32 ≤ start ∧ start ≤ maxInt32
  stop_bounds : minInt32 ≤ stop ∧ stop ≤ maxInt32
  step_bounds : minInt32 ≤ step ∧ step ≤ maxInt32

/-- A counter within twice the range of 32-bit integers. -/
theorem isInt64_of_twice (hleast : 2 * minInt32 ≤ i) (hgreatest : i ≤ 2 * maxInt32) :
    IsInt64 i := by
  rw [minInt32] at hleast
  rw [maxInt32] at hgreatest
  constructor
  · rw [Int64.toInt_minValue]
    omega
  · rw [Int64.toInt_maxValue]
    omega

/-- Counting comes to an end in both directions. The bound on the rounds is how far the counter is
from the end. It goes on only before the end, which is a 32-bit integer, so that a step takes it to
twice such an integer at most. -/
theorem counts_of_rounds (count : Nat → Int → List Int) (hbounded : Bounded start stop step)
    (hzero : ∀ i, count 0 i = [])
    (hsucc : ∀ n i, count (n + 1) i =
      if Precedes step i stop then i :: count n (i + step) else []) :
    ∀ (n : Nat) (i : Int), 2 * minInt32 ≤ i → i ≤ 2 * maxInt32 →
      (Precedes step i stop → (stop - i).natAbs ≤ n) → Counts stop step i (count n i) := by
  obtain ⟨-, hstop, hstep⟩ := hbounded
  simp only [minInt32, maxInt32] at hstop hstep
  intro n
  induction n with
  | zero =>
    intro i hleast hgreatest hrounds
    -- no rounds are left only at the end
    have hend : ¬ Precedes step i stop := by
      intro hbefore
      have hdistance := hrounds hbefore
      rw [Precedes] at hbefore
      omega
    rw [hzero]
    exact .done (isInt64_of_twice hleast hgreatest) hend
  | succ n ih =>
    intro i hleast hgreatest hrounds
    have hword := isInt64_of_twice hleast hgreatest
    rw [hsucc]
    split
    next hbefore =>
      have hdistance := hrounds hbefore
      simp only [minInt32, maxInt32, Precedes] at *
      exact .round hword hbefore (ih (i + step) (by omega) (by omega) (by omega))
    next hend => exact .done hword hend

/-- A round of counting up, told without the direction. -/
theorem countUp_succ (hstep : 0 < step) (n : Nat) (i : Int) :
    World.countUp (n + 1) i stop step =
      if Precedes step i stop then i :: World.countUp n (i + step) stop step else [] := by
  have hprecedes : i < stop ↔ Precedes step i stop := by
    rw [Precedes]
    omega
  exact if_congr hprecedes rfl rfl

/-- A round of counting down, told without the direction. -/
theorem countDown_succ (hstep : step < 0) (n : Nat) (i : Int) :
    World.countDown (n + 1) i stop step =
      if Precedes step i stop then i :: World.countDown n (i + step) stop step else [] := by
  have hprecedes : stop < i ↔ Precedes step i stop := by
    rw [Precedes]
    omega
  exact if_congr hprecedes rfl rfl

/-- Counting between 32-bit integers comes to an end. -/
theorem counts_progression (h : Bounded start stop step) :
    Counts stop step start (World.progression start stop step) := by
  obtain ⟨hleast, hgreatest⟩ : 2 * minInt32 ≤ start ∧ start ≤ 2 * maxInt32 := by
    have hstart := h.start_bounds
    rw [minInt32, maxInt32] at hstart ⊢
    omega
  rw [World.progression]
  by_cases hup : 0 < step
  · rw [if_pos hup]
    apply counts_of_rounds (fun n i => World.countUp n i stop step) h (fun _ => rfl)
      (countUp_succ hup) _ _ hleast hgreatest
    rw [Precedes]
    omega
  · rw [if_neg hup]
    by_cases hdown : step < 0
    · rw [if_pos hdown]
      apply counts_of_rounds (fun n i => World.countDown n i stop step) h (fun _ => rfl)
        (countDown_succ hdown) _ _ hleast hgreatest
      rw [Precedes]
      omega
    · have hend : ¬ Precedes step start stop := by
        rw [Precedes]
        omega
      rw [if_neg hdown]
      exact .done (isInt64_of_twice hleast hgreatest) hend

/-- A number before the end of a range that is listed is between its bounds. -/
theorem Counts.mem_bounds (h : Counts stop step start is) (hi : i ∈ is) :
    min start stop ≤ i ∧ i ≤ max start stop := by
  obtain ⟨k, hk⟩ := List.mem_iff_getElem?.1 hi
  rw [h.getElem?_eq, Option.ite_none_right_eq_some, Option.some_inj] at hk
  obtain ⟨hbefore, rfl⟩ := hk
  rcases hbefore with ⟨hstep, hlt⟩ | ⟨hstep, hlt⟩
  · have hpath : 0 ≤ k * step := mul_nonneg (Int.natCast_nonneg k) hstep.le
    omega
  · have hpath : k * step ≤ 0 := mul_nonpos_of_nonneg_of_nonpos (Int.natCast_nonneg k) hstep.le
    omega

/-- The double of each number of a range stands for it. -/
theorem Counts.isWhole (h : Counts stop step start is) (hbounded : Bounded start stop step)
    (hi : i ∈ is) : IsWhole (ofInt i) i := by
  obtain ⟨hlow, hhigh⟩ := h.mem_bounds hi
  obtain ⟨hstart, hstop, -⟩ := hbounded
  apply isWhole_ofInt
  simp only [minInt32, maxInt32] at hstart hstop
  rw [twoTo_53]
  omega

end Counting

section Range

variable {a b c zero one : Float} {start stop step : Int}

/-- The numbers of a range with both of its bounds and its step. -/
theorem rangeNumbers_whole (receiver : Value) (ha : IsWhole a start) (hb : IsWhole b stop)
    (hc : IsWhole c step) (h : Bounded start stop step) :
    World.rangeNumbers (argumentsOf (.global .range) receiver [.number a, .number b, .number c]) =
      World.progression start stop step := by
  change World.progression (World.toInt (.number a)) (World.toInt (.number b))
    (World.toInt (.number c)) = _
  rw [toInt_whole ha h.start_bounds, toInt_whole hb h.stop_bounds, toInt_whole hc h.step_bounds]

/-- A range with a single bound goes from zero to it, by steps of one. -/
theorem rangeNumbers_single (receiver v : Value) (hzero : IsWhole zero 0) (hone : IsWhole one 1) :
    World.rangeNumbers (argumentsOf (.global .range) receiver [v]) =
      World.rangeNumbers
        (argumentsOf (.global .range) receiver [.number zero, v, .number one]) := by
  have hstart : World.toInt (.number zero) = 0 := toInt_whole hzero (by decide)
  have hstep : World.toInt (.number one) = 1 := toInt_whole hone (by decide)
  have hdefault : World.toInt (.number (ofNat 1)) = 1 :=
    toInt_whole (ofInt_natCast 1 ▸ isWhole_ofInt (by decide)) (by decide)
  change World.progression 0 (World.toInt v) (World.toInt (.number (ofNat 1))) = _
  cases v with
  | nil =>
    change _ = World.progression 0 (World.toInt (.number zero)) (World.toInt (.number one))
    rw [hstart, hstep, hdefault]
    rfl
  | _ =>
    change _ = World.progression (World.toInt (.number zero)) _ (World.toInt (.number one))
    rw [hstart, hstep, hdefault]
    rfl

/-- Between 32-bit integers, `range` gives a new list with the arithmetic progression from the first
bound on, as far as it lies before the second one. Its numbers are exact. With a single argument it
does the same as from zero, by steps of one. -/
theorem range_progression (site : Site) (w : World) (receiver : Value)
    (ha : IsWhole a start) (hb : IsWhole b stop) (hc : IsWhole c step)
    (hbounded : Bounded start stop step) (hzero : IsWhole zero 0) (hone : IsWhole one 1) :
    (∃ is made w', Progression start stop step is ∧
      AnswersGlobal site w receiver "range" [.number a, .number b, .number c] (.list made) w' ∧
      w'.elements made = is.map .ofInt ∧ ∀ i ∈ is, IsWhole (ofInt i) i) ∧
    ∀ v u w', AnswersGlobal site w receiver "range" [v] u w' ↔
      AnswersGlobal site w receiver "range" [.number zero, v, .number one] u w' := by
  have hcounts := counts_progression hbounded
  refine ⟨⟨World.progression start stop step, _, _, hcounts.progression,
    (answersGlobal_iff .range).2 rfl, ?_, fun i hi => hcounts.isWhole hbounded hi⟩, ?_⟩
  · rw [← rangeNumbers_whole receiver ha hb hc hbounded]
    exact World.elements_newList_self _
  · intro v u w'
    refine (answersGlobal_iff .range).trans ((answersGlobal_iff .range).trans ?_).symm
    simp only [World.globalFunction]
    rw [rangeNumbers_single receiver v hzero hone]

/-- From the least of all 32-bit integers, the greatest one as a step passes the greatest one as a
bound behind the third number. -/
theorem range_progression_extremes :
    IsWhole (ofInt minInt32) minInt32 ∧ IsWhole (ofInt maxInt32) maxInt32 ∧
    Bounded minInt32 maxInt32 maxInt32 ∧ IsWhole (ofInt 0) 0 ∧ IsWhole (ofInt 1) 1 ∧
    ∃ made w', AnswersGlobal ⟨⟨4⟩, []⟩ World.loopInClosure .nil "range"
        [.ofInt minInt32, .ofInt maxInt32, .ofInt maxInt32] (.list made) w' ∧
      w'.elements made = [.ofInt (-2147483648), .ofInt (-1), .ofInt 2147483646] := by
  have hleast : IsWhole (ofInt minInt32) minInt32 := isWhole_ofInt (by decide)
  have hgreatest : IsWhole (ofInt maxInt32) maxInt32 := isWhole_ofInt (by decide)
  have hbounded : Bounded minInt32 maxInt32 maxInt32 := by
    constructor <;> decide
  have hzero : IsWhole (ofInt 0) 0 := isWhole_ofInt (by decide)
  have hone : IsWhole (ofInt 1) 1 := isWhole_ofInt (by decide)
  obtain ⟨⟨is, made, w', hprogression, hcall, helements, -⟩, -⟩ :=
    range_progression ⟨⟨4⟩, []⟩ World.loopInClosure .nil hleast hgreatest hgreatest hbounded
      hzero hone
  refine ⟨hleast, hgreatest, hbounded, hzero, hone, made, w', hcall, ?_⟩
  have hnumbers : is = [-2147483648, -1, 2147483646] := by
    apply List.ext_getElem?
    intro k
    rw [hprogression.getElem?_eq]
    match k with
    | 0 | 1 | 2 => rfl
    | k + 3 =>
      have hpast :
          ¬ Precedes maxInt32 (minInt32 + ((k + 3 : Nat) : Int) * maxInt32) maxInt32 := by
        rw [Precedes, minInt32, maxInt32]
        omega
      rw [if_neg hpast]
      rfl
  rw [helements, hnumbers]
  rfl

end Range

end LineScript.Run
