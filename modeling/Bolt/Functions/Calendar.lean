import Bolt.Functions.TimestampText

/-!
# Calendar times and epochs

`calendarUtcToEpoch` takes the times of `epochToCalendarUtc` back. The loop over the years moves
days between the year and the day of the year without losing any, and it ends: the days
left over after a step are at most one for every four years the step crossed.
-/

namespace Bolt.Functions

/-- A `tm_mon` that is negative, for which years are borrowed, is left out. -/
def calendarUtcToEpoch (tm : Tm) : ℤ :=
  let year := tm.year + 1900 + (tm.mon / 12 : ℕ)
  let month := tm.mon % 12
  let dayOfYear : ℤ := -1 + (daysBeforeFirstDayOfMonth (isLeap year)).getD month 0 + tm.mday
  86400 * (daysBetweenYears 1970 year + dayOfYear) + 3600 * tm.hour + 60 * tm.min + tm.sec

theorem daysBetweenYears_add (a b c : ℤ) : daysBetweenYears a b + daysBetweenYears b c = daysBetweenYears a c := by
  unfold daysBetweenYears
  ring

theorem leapThroughEndOf_eq {y : ℤ} (hy : -4000000000 ≤ y) : leapThroughEndOf y =
    (y + 4000000000) / 4 - (y + 4000000000) / 4 / 25 + (y + 4000000000) / 4 / 25 / 4 := by
  unfold leapThroughEndOf
  dsimp only
  rw [Int.tdiv_eq_ediv_of_nonneg (by omega), Int.tdiv_eq_ediv_of_nonneg (by omega),
    Int.tdiv_eq_ediv_of_nonneg (by omega)]
  omega

/-- A leap day comes at most once in four years. -/
theorem leapThroughEndOf_sub {a b : ℤ} (ha : -4000000000 ≤ a) (hab : a ≤ b) :
    0 ≤ leapThroughEndOf b - leapThroughEndOf a ∧ 4 * (leapThroughEndOf b - leapThroughEndOf a) ≤ b - a + 3 := by
  rw [leapThroughEndOf_eq ha, leapThroughEndOf_eq (by omega)]
  omega

theorem leapThroughEndOf_succ {y : ℤ} (hy : -4000000000 < y) :
    leapThroughEndOf y - leapThroughEndOf (y - 1) = (isLeap y).toInt := by
  have hd : ∀ n : ℤ, (y.tmod n == 0) = decide (y % n = 0) := fun n => by
    rw [Bool.eq_iff_iff, beq_iff_eq, decide_eq_true_eq, ← Int.dvd_iff_tmod_eq_zero, Int.dvd_iff_emod_eq_zero]
  rw [leapThroughEndOf_eq (by omega), leapThroughEndOf_eq (by omega), isLeap, bne, hd, hd, hd]
  by_cases h4 : y % 4 = 0 <;> by_cases h100 : y % 100 = 0 <;> by_cases h400 : y % 400 = 0 <;>
    simp [h4, h100, h400] <;> omega

theorem tdiv_of_neg {z : ℤ} (hz : z < 0) : z.tdiv 365 = -((-z) / 365) := by
  rw [← Int.tdiv_eq_ediv_of_nonneg (by omega), Int.neg_tdiv, neg_neg]

/-- What the loop lowers. A negative number of days is followed by less than two years. -/
def yearMeasure (days : ℤ) : ℤ := if days < 0 then 368 - days else days

/-- The years that the loop reaches are after the one that `leapThroughEndOf` counts from. -/
def YearsFit (y days : ℤ) : Prop :=
  -4000000000 + 5 ≤ y ∧ (days < 0 → -4000000000 + 5 ≤ y + days.tdiv 365 - 1)

theorem yearStep {y days : ℤ} (h : YearsFit y days) (ho : days < 0 ∨ 365 + (isLeap y).toInt ≤ days) :
    let newy := y + days.tdiv 365 - (decide (days < 0)).toInt
    YearsFit newy (days - daysBetweenYears y newy) ∧ yearMeasure (days - daysBetweenYears y newy) < yearMeasure days := by
  obtain ⟨hy, hn⟩ := h
  have hl := leapThroughEndOf_succ (show -4000000000 < y by omega)
  have hz : 0 ≤ (isLeap y).toInt := by cases isLeap y <;> decide
  dsimp only
  unfold YearsFit yearMeasure daysBetweenYears
  rcases lt_or_ge days 0 with hd | hd
  · have ht := tdiv_of_neg hd
    have hb := leapThroughEndOf_sub (show -4000000000 ≤ y + days.tdiv 365 - 1 - 1 by omega)
      (show y + days.tdiv 365 - 1 - 1 ≤ y - 1 by omega)
    simp only [hd, decide_true, Bool.toInt_true, if_true]
    rw [if_neg (by omega)]
    refine ⟨⟨by omega, fun h => absurd h (by omega)⟩, by omega⟩
  · have ht : days.tdiv 365 = days / 365 := Int.tdiv_eq_ediv_of_nonneg hd
    have hb := leapThroughEndOf_sub (show -4000000000 ≤ y - 1 by omega) (show y - 1 ≤ y + days.tdiv 365 - 1 by omega)
    simp only [show ¬days < 0 by omega, decide_false, Bool.toInt_false, if_false, sub_zero]
    have hk : 1 ≤ days / 365 := by omega
    rcases Nat.lt_or_ge 1 (days / 365).toNat with hk' | hk'
    · refine ⟨⟨by omega, fun h => ?_⟩, ?_⟩
      · have hq := tdiv_of_neg h
        omega
      · split_ifs <;> omega
    · have h1 : days.tdiv 365 = 1 := by omega
      rw [h1, add_sub_cancel_right]
      rw [if_neg (by omega)]
      refine ⟨⟨by omega, fun h => absurd h (by omega)⟩, by omega⟩

/-- Enough fuel ends the loop. -/
theorem yearLoop_ends {fuel : ℕ} {y days : ℤ} (h : YearsFit y days) (hf : yearMeasure days < fuel) :
    ∃ y' days', yearLoop fuel y days = some (y', days') ∧ -4000000000 + 5 ≤ y' := by
  induction fuel generalizing y days with
  | zero =>
    unfold yearMeasure at hf
    split_ifs at hf <;> omega
  | succ fuel ih =>
    rw [yearLoop]
    split_ifs with ho
    · obtain ⟨hn, hm⟩ := yearStep h ho
      exact ih hn (by omega)
    · exact ⟨y, days, rfl, h.1⟩

theorem yearLoop_days {fuel : ℕ} {y days y' days' : ℤ} (h : yearLoop fuel y days = some (y', days')) :
    daysBetweenYears y y' + days' = days := by
  induction fuel generalizing y days with
  | zero => cases h
  | succ fuel ih =>
    rw [yearLoop] at h
    split_ifs at h with ho
    · have hi := ih h
      have ha := daysBetweenYears_add y (y + days.tdiv 365 - (decide (days < 0)).toInt) y'
      omega
    · cases h
      unfold daysBetweenYears
      ring

theorem dayOfYear_lt {fuel : ℕ} {y days y' days' : ℤ} (h : yearLoop fuel y days = some (y', days')) :
    days'.toNat < 365 + (isLeap y').toNat := by
  have hlt := (yearLoop_spec h).2
  generalize isLeap y' = leapYear at hlt
  cases leapYear <;> simp at hlt ⊢ <;> omega

def monthLengths (leapYear : Bool) : List ℕ := [31, 28 + leapYear.toNat, 31, 30, 31, 30, 31, 31, 30, 31, 30, 31]

/-- A time of a day that exists. -/
structure Tm.OnCalendar (tm : Tm) : Prop extends tm.InRange where
  le_mday : 1 ≤ tm.mday
  mday_le : tm.mday ≤ (monthLengths (isLeap (tm.year + 1900))).getD tm.mon 0

theorem monthOf_mdayOf : ∀ leapYear, ∀ days < 365 + leapYear.toNat,
    (daysBeforeFirstDayOfMonth leapYear).getD (monthOf leapYear days) 0 + mdayOf leapYear days = days + 1 ∧
      mdayOf leapYear days ≤ (monthLengths leapYear).getD (monthOf leapYear days) 0 := by
  decide +kernel

/-- The day and the rest of the day are those of the floor division. -/
theorem epochToCalendarUtc_eq (fuel : ℕ) (epoch : ℤ) : epochToCalendarUtc fuel epoch =
    if 1970 + (epoch / 86400).tdiv 365 ≤ -4000000000 + 10 then none
    else (yearLoop fuel 1970 (epoch / 86400)).bind fun (y, days) =>
      if 2147483647 < y - 1900 ∨ y - 1900 < -2147483648 then none
      else some ⟨y - 1900, monthOf (isLeap y) days.toNat, mdayOf (isLeap y) days.toNat,
        (epoch % 86400).toNat / 3600, (epoch % 86400).toNat % 3600 / 60, (epoch % 86400).toNat % 3600 % 60⟩ := by
  have ht := Int.mul_tdiv_add_tmod epoch 86400
  have hlo := Int.lt_tmod_of_pos epoch (show (0 : ℤ) < 86400 by decide)
  have hhi := Int.tmod_lt_of_pos epoch (show (0 : ℤ) < 86400 by decide)
  have hd : epoch.tdiv 86400 - (decide (epoch.tmod 86400 < 0)).toInt = epoch / 86400 := by
    by_cases hn : epoch.tmod 86400 < 0 <;> simp [hn] <;> omega
  have hr : epoch.tmod 86400 + 86400 * (decide (epoch.tmod 86400 < 0)).toInt = epoch % 86400 := by omega
  unfold epochToCalendarUtc
  dsimp only
  rw [hd, hr]

theorem calendarUtcToEpoch_of_some {fuel : ℕ} {epoch y days : ℤ} (hl : yearLoop fuel 1970 (epoch / 86400) = some (y, days)) :
    calendarUtcToEpoch ⟨y - 1900, monthOf (isLeap y) days.toNat, mdayOf (isLeap y) days.toNat,
      (epoch % 86400).toNat / 3600, (epoch % 86400).toNat % 3600 / 60, (epoch % 86400).toNat % 3600 % 60⟩ = epoch := by
  have hp := (yearLoop_spec hl).1
  have hd := yearLoop_days hl
  have hn := dayOfYear_lt hl
  have hm := (monthOf_mdayOf _ _ hn).1
  have hb := (month_bounds _ _ hn).1
  unfold calendarUtcToEpoch
  dsimp only
  rw [Nat.mod_eq_of_lt hb, Nat.div_eq_of_lt hb, Nat.cast_zero, add_zero, sub_add_cancel]
  omega

/-- The days of the first and behind the last year whose distance from 1900 is an `int`. -/
theorem year_bounds {y days : ℤ} (hy : -4000000000 + 5 ≤ y) (h0 : 0 ≤ days) (hd : days < 365 + (isLeap y).toInt) :
    (-2147481748 ≤ y ↔ -784352321872 ≤ daysBetweenYears 1970 y + days) ∧
      (y ≤ 2147485547 ↔ daysBetweenYears 1970 y + days < 784352270737) := by
  have hs := leapThroughEndOf_succ (show -4000000000 < y by omega)
  have hb : leapThroughEndOf 1969 = 970000477 := by decide
  have hf : leapThroughEndOf (-2147481749) = 449235675 := by decide
  have hl : leapThroughEndOf 2147485547 = 1490765244 := by decide
  unfold daysBetweenYears
  rw [show (1970 - 1 : ℤ) = 1969 by rfl, hb]
  constructor
  · rcases lt_or_ge y (-2147481748) with h | h
    · have hm := leapThroughEndOf_sub (show -4000000000 ≤ y by omega) (show y ≤ -2147481749 by omega)
      omega
    · have hm := leapThroughEndOf_sub (show -4000000000 ≤ -2147481749 by omega) (show -2147481749 ≤ y - 1 by omega)
      omega
  · rcases lt_or_ge 2147485547 y with h | h
    · have hm := leapThroughEndOf_sub (show -4000000000 ≤ 2147485547 by omega) (show 2147485547 ≤ y - 1 by omega)
      omega
    · have hm := leapThroughEndOf_sub (show -4000000000 ≤ y by omega) h
      omega

theorem yearLoop_isSome {epoch : ℤ} (h : -4000000000 + 10 < 1970 + (epoch / 86400).tdiv 365) {fuel : ℕ}
    (hf : epoch.natAbs + 370 ≤ fuel) :
    ∃ y days, yearLoop fuel 1970 (epoch / 86400) = some (y, days) ∧ -4000000000 + 5 ≤ y := by
  refine yearLoop_ends ⟨by decide, fun _ => by omega⟩ ?_
  unfold yearMeasure
  split_ifs <;> omega

/-- `epochToCalendarUtc` ends, accepts exactly the seconds of the years whose distance from 1900
is an `int`, and gives the time of a day that exists, which `calendarUtcToEpoch` takes back. -/
theorem epochToCalendarUtc_exact (epoch : ℤ) (more : ℕ) :
    (-4000000000 + 10 < 1970 + (epoch / 86400).tdiv 365 →
      (yearLoop (epoch.natAbs + 370 + more) 1970 (epoch / 86400)).isSome) ∧
    ((epochToCalendarUtc (epoch.natAbs + 370 + more) epoch).isSome ↔
      -67768040609740800 ≤ epoch ∧ epoch ≤ 67768036191676799) ∧
    ∀ fuel tm, epochToCalendarUtc fuel epoch = some tm → tm.OnCalendar ∧ calendarUtcToEpoch tm = epoch := by
  have hf := Nat.le_add_right (epoch.natAbs + 370) more
  refine ⟨fun h => ?_, ?_, fun fuel tm h => ?_⟩
  · obtain ⟨y, days, hl, -⟩ := yearLoop_isSome h hf
    rw [hl, Option.isSome_some]
  · rw [epochToCalendarUtc_eq]
    split_ifs with hg
    · rw [Option.isSome_none]
      rcases lt_or_ge (epoch / 86400) 0 with h | h
      · rw [tdiv_of_neg h] at hg
        simp
        omega
      · rw [Int.tdiv_eq_ediv_of_nonneg h] at hg
        omega
    · obtain ⟨y, days, hl, hy⟩ := yearLoop_isSome (Int.not_le.mp hg) hf
      obtain ⟨hp, hlt⟩ := yearLoop_spec hl
      have hd := yearLoop_days hl
      have hb := year_bounds hy hp hlt
      rw [hl, Option.bind_some]
      dsimp only
      split_ifs <;> simp <;> omega
  · have hin := inRange_of_epochToCalendarUtc h
    rw [epochToCalendarUtc_eq] at h
    split_ifs at h
    obtain ⟨⟨y, days⟩, hl, h⟩ := Option.bind_eq_some_iff.mp h
    dsimp only at h
    split_ifs at h
    obtain rfl := Option.some.inj h
    have hn := dayOfYear_lt hl
    refine ⟨⟨hin, (month_bounds _ _ hn).2.1, ?_⟩, calendarUtcToEpoch_of_some hl⟩
    dsimp only
    rw [sub_add_cancel]
    exact (monthOf_mdayOf _ _ hn).2

end Bolt.Functions
