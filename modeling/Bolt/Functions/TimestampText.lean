import Bolt.Functions.VariantDecimals
import Mathlib.Tactic.Ring

/-!
# Timestamps as text

Two functions render a timestamp: one writes digits backwards and reverses them, the other
counts them first. The texts agree, fit the buffer and read back, except for the year zero
without padding, and for years whose number is not an `int`.
-/

namespace Bolt.Functions

open List

/-! ## The calendar -/

/-- The fields of `std::tm` that are rendered. -/
structure Tm where
  year : ℤ
  mon : ℕ
  mday : ℕ
  hour : ℕ
  min : ℕ
  sec : ℕ
deriving DecidableEq

def isLeap (y : ℤ) : Bool := y.tmod 4 == 0 && (y.tmod 100 != 0 || y.tmod 400 == 0)

def leapThroughEndOf (y : ℤ) : ℤ :=
  let y := y + 4000000000
  y.tdiv 4 - y.tdiv 100 + y.tdiv 400

def daysBetweenYears (y1 y2 : ℤ) : ℤ := 365 * (y2 - y1) + leapThroughEndOf (y2 - 1) - leapThroughEndOf (y1 - 1)

def daysBeforeFirstDayOfMonth : Bool → List ℕ
  | false => [0, 31, 59, 90, 120, 151, 181, 212, 243, 273, 304, 334]
  | true => [0, 31, 60, 91, 121, 152, 182, 213, 244, 274, 305, 335]

/-- The loop over the years, with fuel. -/
def yearLoop : ℕ → ℤ → ℤ → Option (ℤ × ℤ)
  | 0, _, _ => none
  | fuel + 1, y, days =>
    if days < 0 ∨ 365 + (isLeap y).toInt ≤ days then
      let newy := y + days.tdiv 365 - (decide (days < 0)).toInt
      yearLoop fuel newy (days - daysBetweenYears y newy)
    else some (y, days)

/-- `std::upper_bound` finds the first month that starts later. -/
def monthOf (leapYear : Bool) (days : ℕ) : ℕ := (daysBeforeFirstDayOfMonth leapYear).countP (· ≤ days) - 1

def mdayOf (leapYear : Bool) (days : ℕ) : ℕ :=
  days - (daysBeforeFirstDayOfMonth leapYear).getD (monthOf leapYear days) 0 + 1

/-- `none` is an epoch that is not accepted. The loop on the remainder runs at most once. -/
def epochToCalendarUtc (fuel : ℕ) (epoch : ℤ) : Option Tm :=
  let late := decide (epoch.tmod 86400 < 0)
  let rem := (epoch.tmod 86400 + 86400 * late.toInt).toNat
  let days := epoch.tdiv 86400 - late.toInt
  if 1970 + days.tdiv 365 ≤ -4000000000 + 10 then none
  else
    (yearLoop fuel 1970 days).bind fun (y, days) =>
      if 2147483647 < y - 1900 ∨ y - 1900 < -2147483648 then none
      else some ⟨y - 1900, monthOf (isLeap y) days.toNat, mdayOf (isLeap y) days.toNat,
        rem / 3600, rem % 3600 / 60, rem % 3600 % 60⟩

theorem yearLoop_spec {fuel : ℕ} {y days y' days' : ℤ} (h : yearLoop fuel y days = some (y', days')) :
    0 ≤ days' ∧ days' < 365 + (isLeap y').toInt := by
  induction fuel generalizing y days with
  | zero => cases h
  | succ fuel ih =>
    rw [yearLoop] at h
    split_ifs at h with ho
    · exact ih h
    · cases h
      omega

theorem month_bounds : ∀ leapYear, ∀ days < 365 + leapYear.toNat,
    monthOf leapYear days < 12 ∧ 1 ≤ mdayOf leapYear days ∧ mdayOf leapYear days ≤ 31 := by
  decide +kernel

/-- The fields of a calendar time are in their ranges. -/
structure Tm.InRange (tm : Tm) : Prop where
  year_le : tm.year ≤ 2147483647
  le_year : -2147483648 ≤ tm.year
  mon : tm.mon < 12
  mday : tm.mday ≤ 31
  hour : tm.hour < 24
  min : tm.min < 60
  sec : tm.sec < 60

theorem inRange_of_epochToCalendarUtc {fuel : ℕ} {epoch : ℤ} {tm : Tm} (h : epochToCalendarUtc fuel epoch = some tm) :
    tm.InRange := by
  unfold epochToCalendarUtc at h
  dsimp only at h
  split_ifs at h with hea
  obtain ⟨⟨y, days⟩, hl, h⟩ := Option.bind_eq_some_iff.mp h
  dsimp only at h
  split_ifs at h with hy
  obtain rfl := Option.some.inj h
  obtain ⟨hp, hlt⟩ := yearLoop_spec hl
  have hd : days.toNat < 365 + (isLeap y).toNat := by
    generalize isLeap y = leapYear at hlt
    cases leapYear <;> simp at hlt ⊢ <;> omega
  have hm := month_bounds _ _ hd
  have hlo := Int.lt_tmod_of_pos epoch (show (0 : ℤ) < 86400 by decide)
  have hh := Int.tmod_lt_of_pos epoch (show (0 : ℤ) < 86400 by decide)
  have hr : (epoch.tmod 86400 + 86400 * (decide (epoch.tmod 86400 < 0)).toInt).toNat < 86400 := by
    by_cases hn : epoch.tmod 86400 < 0 <;> simp [hn]
    omega
  constructor <;> dsimp only <;> omega

/-! ## The renderers -/

inductive TimestampPrecision
  | milliseconds
  | microseconds
  | nanoseconds

namespace TimestampPrecision

def width : TimestampPrecision → ℕ
  | milliseconds => 3
  | microseconds => 6
  | nanoseconds => 9

def truncate : TimestampPrecision → ℕ → ℕ
  | milliseconds, nanos => nanos / 1000000
  | microseconds, nanos => nanos / 1000
  | nanoseconds, nanos => nanos

end TimestampPrecision

inductive TimestampMode
  | full
  | dateOnly
  | timeOnly
deriving DecidableEq

structure TimestampToStringOptions where
  precision : TimestampPrecision := .nanoseconds
  leadingPositiveSign : Bool := false
  skipTrailingZeros : Bool := false
  zeroPaddingYear : Bool := false
  dateTimeSeparator : Char := ' '
  mode : TimestampMode := .full

section Render

variable (options : TimestampToStringOptions) (tm : Tm) (nanos : ℕ)

def getMaxStringLength : ℕ :=
  match options.mode with
  | .dateOnly => 17
  | .timeOnly => 9 + options.precision.width
  | .full => 27 + options.precision.width

/-- `kTmYearBase + tm_year`, an `int`; `none` is the overflow. -/
def formYear : Option ℤ := if 1900 + tm.year ≤ 2147483647 then some (1900 + tm.year) else none

def leadingPositiveSign (year : ℤ) : Bool := options.leadingPositiveSign && 9999 < year

/-- Month and day behind a year; `two` prints a number of two digits. -/
def dateText (two : ℕ → List Char) (year : List Char) : List Char :=
  year ++ '-' :: two (tm.mon + 1) ++ '-' :: two tm.mday

def timeText (two : ℕ → List Char) (fraction : List Char) : List Char :=
  two tm.hour ++ ':' :: two tm.min ++ ':' :: two tm.sec ++
    if options.skipTrailingZeros ∧ options.precision.truncate nanos = 0 then [] else '.' :: fraction

/-- What both renderers have in common. -/
def layOut (year : ℤ → List Char) (two : ℕ → List Char) (fraction : List Char) : Option (List Char) :=
  let time := timeText options tm nanos two fraction
  if options.mode = .timeOnly then some time
  else (formYear tm).map fun n => dateText tm two (year n) ++
    if options.mode = .dateOnly then [] else options.dateTimeSeparator :: time

/-- The entries of `intToStr`. -/
def appendSmallInt (n : ℕ) : List Char := [Nat.digitChar (n / 10), Nat.digitChar (n % 10)]

/-- The year of `tmToString`; the sign stays in front of what is reversed. -/
def yearBackwards (n : ℤ) : List Char :=
  let out := digitLoop n.natAbs
  let out := if options.zeroPaddingYear then out ++ replicate (4 - out.length) '0' else out
  let out := if leadingPositiveSign options n then out ++ ['+'] else out
  (if n < 0 then ['-'] else []) ++ out.reverse

/-- The digits from the last one on, without the zeros at the end, which are counted. -/
def skipZerosLoop (nanos trailingZeros : ℕ) (out : List Char) : ℕ × List Char :=
  if _h : 0 < nanos then
    if out = [] ∧ nanos % 10 = 0 then skipZerosLoop (nanos / 10) (trailingZeros + 1) out
    else skipZerosLoop (nanos / 10) trailingZeros (out ++ [Nat.digitChar (nanos % 10)])
  else (trailingZeros, out)
termination_by nanos
decreasing_by all_goals omega

def fractionBackwards : List Char :=
  let nanos := options.precision.truncate nanos
  let (trailingZeros, out) := if options.skipTrailingZeros then skipZerosLoop nanos 0 [] else (0, digitLoop nanos)
  (out ++ replicate (options.precision.width - trailingZeros - out.length) '0').reverse

def tmToString : Option (List Char) :=
  layOut options tm nanos (yearBackwards options) appendSmallInt (fractionBackwards options nanos)

def countDigits (n : ℕ) : ℕ :=
  if n < 10 then 1
  else if n < 100 then 2
  else if n < 1000 then 3
  else if n < 10000 then 4
  else countDigits (n / 10000) + 4
termination_by n
decreasing_by omega

def appendDigits (minWidth value : ℕ) : List Char :=
  replicate (minWidth - countDigits value) '0' ++ Nat.toDigits 10 value

def yearForwards (n : ℤ) : List Char :=
  (if n < 0 then ['-'] else if leadingPositiveSign options n then ['+'] else []) ++
    appendDigits (if options.zeroPaddingYear then 4 else 0) n.natAbs

/-- The loop that writes from the end to the start, from the last digit on that is not zero. -/
def writeBackLoop (nanos : ℕ) (written : List Char) : List Char :=
  if _h : 0 < nanos then
    writeBackLoop (nanos / 10)
      (if written ≠ [] ∨ nanos % 10 ≠ 0 then Nat.digitChar (nanos % 10) :: written else written)
  else written
termination_by nanos
decreasing_by omega

def fractionForwards : List Char :=
  let nanos := options.precision.truncate nanos
  replicate (options.precision.width - countDigits nanos) '0' ++
    if options.skipTrailingZeros then writeBackLoop nanos [] else Nat.toDigits 10 nanos

def tmToStringView : Option (List Char) :=
  layOut options tm nanos (yearForwards options) (appendDigits 2) (fractionForwards options nanos)

end Render

/-! ## What the texts say -/

/-- The text consists of digits and is the decimal number. -/
def IsNumber (n : ℕ) (text : List Char) : Prop := (∀ c ∈ text, c.isDigit) ∧ Nat.ofDigitChars 10 text 0 = n

def IsTwoDigits (n : ℕ) (text : List Char) : Prop := text.length = 2 ∧ IsNumber n text

section Reads

variable (options : TimestampToStringOptions) (tm : Tm) (nanos : ℕ) (text : List Char)

def ReadsDate : Prop :=
  ∃ year month day, text = (if 1900 + tm.year < 0 then ['-'] else if leadingPositiveSign options (1900 + tm.year) then ['+']
      else []) ++ year ++ '-' :: month ++ '-' :: day ∧
    year ≠ [] ∧ IsNumber (1900 + tm.year).natAbs year ∧ IsTwoDigits (tm.mon + 1) month ∧ IsTwoDigits tm.mday day

/-- Fractional digits that are left out at the end are zeros. -/
def ReadsFraction : Prop :=
  text = [] ∧ options.precision.truncate nanos = 0 ∨
    ∃ n digits, text = '.' :: digits ∧ IsNumber n digits ∧ digits.length ≤ options.precision.width ∧
      n * 10 ^ (options.precision.width - digits.length) = options.precision.truncate nanos

def ReadsTime : Prop :=
  ∃ hour min sec fraction, text = hour ++ ':' :: min ++ ':' :: sec ++ fraction ∧ IsTwoDigits tm.hour hour ∧
    IsTwoDigits tm.min min ∧ IsTwoDigits tm.sec sec ∧ ReadsFraction options nanos fraction

/-- Both renderers produce one text, without overflow, that fits and reads back. -/
def Renders : Prop :=
  ∃ text, tmToString options tm nanos = some text ∧ tmToStringView options tm nanos = some text ∧
    text.length ≤ getMaxStringLength options ∧
    if options.mode = .timeOnly then ReadsTime options tm nanos text
    else ∃ date rest, text = date ++ rest ∧ ReadsDate options tm date ∧
      if options.mode = .dateOnly then rest = []
      else ∃ time, rest = options.dateTimeSeparator :: time ∧ ReadsTime options tm nanos time

end Reads

section Digits

variable {n w : ℕ}

theorem countDigits_eq (n : ℕ) : countDigits n = (Nat.toDigits 10 n).length := by
  have ho : ∀ m, m < 10 → (Nat.toDigits 10 m).length = 1 := fun m hm => by rw [Nat.toDigits_of_lt_base hm]; rfl
  have hs : ∀ m, 10 ≤ m → (Nat.toDigits 10 m).length = (Nat.toDigits 10 (m / 10)).length + 1 := fun m hm => by
    rw [Nat.toDigits_of_base_le (by decide) hm, length_append]
    rfl
  induction n using Nat.strongRecOn with
  | ind n ih =>
    rw [countDigits]
    split_ifs with h1 h2 h3 h4
    · rw [ho n h1]
    · rw [hs n (by omega), ho _ (by omega)]
    · rw [hs n (by omega), hs _ (by omega), ho _ (by omega)]
    · rw [hs n (by omega), hs _ (by omega), hs _ (by omega), ho _ (by omega)]
    · rw [hs n (by omega), hs _ (by omega), hs _ (by omega), hs _ (by omega), ih _ (by omega),
        Nat.div_div_eq_div_mul, Nat.div_div_eq_div_mul, Nat.div_div_eq_div_mul]

theorem length_appendDigits : (appendDigits w n).length = max w (Nat.toDigits 10 n).length := by
  rw [appendDigits, countDigits_eq, length_append, length_replicate]
  omega

theorem IsNumber.zeros {text : List Char} (h : IsNumber n text) (count : ℕ) :
    IsNumber n (replicate count '0' ++ text) := by
  refine ⟨forall_mem_append.mpr ⟨fun c hc => ?_, h.1⟩, ?_⟩
  · rw [eq_of_mem_replicate hc]
    decide
  · rw [Nat.ofDigitChars_append, Nat.ofDigitChars_replicate_zero, Nat.mul_zero, h.2]

theorem isNumber_appendDigits : IsNumber n (appendDigits w n) :=
  IsNumber.zeros ⟨fun _ => Nat.isDigit_of_mem_toDigits (by decide) (by decide), Nat.ofDigitChars_ten_toDigits⟩ _

theorem appendSmallInt_eq (h : n < 100) : appendSmallInt n = appendDigits 2 n := by
  rw [appendSmallInt, appendDigits, countDigits_eq]
  by_cases hn : n < 10
  · rw [Nat.toDigits_of_lt_base hn, Nat.div_eq_of_lt hn, Nat.mod_eq_of_lt hn]
    rfl
  · rw [Nat.toDigits_of_base_le (by decide) (by omega), Nat.toDigits_of_lt_base (by omega)]
    rfl

theorem isTwoDigits_appendDigits (h : n < 100) : IsTwoDigits n (appendDigits 2 n) := by
  have hd := (Nat.length_toDigits_le_iff (n := n) (b := 10) (k := 2) (by decide) (by decide)).mpr h
  refine ⟨?_, isNumber_appendDigits⟩
  rw [length_appendDigits]
  omega

theorem length_digitLoop (h : 0 < n) : (digitLoop n).length = countDigits n := by
  rw [countDigits_eq, ← digitLoop_eq n h, length_reverse]

end Digits

section Texts

variable {options : TimestampToStringOptions} {tm : Tm} {nanos : ℕ}

theorem yearBackwards_eq {n : ℤ} (h : options.zeroPaddingYear ∨ n ≠ 0) :
    yearBackwards options n = yearForwards options n := by
  have hs : leadingPositiveSign options n → ¬n < 0 := by
    simp only [leadingPositiveSign, Bool.and_eq_true, decide_eq_true_eq]
    omega
  have hd : (if options.zeroPaddingYear then digitLoop n.natAbs ++ replicate (4 - (digitLoop n.natAbs).length) '0'
      else digitLoop n.natAbs).reverse = appendDigits (if options.zeroPaddingYear then 4 else 0) n.natAbs := by
    by_cases hz : n = 0
    · subst hz
      have hpa : options.zeroPaddingYear := h.resolve_right (by simp)
      simp [hpa, digitLoop, appendDigits, countDigits]
    · have hp : 0 < n.natAbs := by omega
      split_ifs
      · rw [reverse_append, digitLoop_eq _ hp, length_digitLoop hp, reverse_replicate, appendDigits]
      · rw [digitLoop_eq _ hp, appendDigits, Nat.zero_sub]
        rfl
  rw [yearBackwards, yearForwards, ← hd]
  by_cases hplus : leadingPositiveSign options n
  · simp [hplus, hs hplus]
  · simp [hplus]

/-- Digits that were skipped and digits that were written make up the number. -/
theorem skipZerosLoop_spec (n trailingZeros : ℕ) (out : List Char) (hd : ∀ c ∈ out, c.isDigit) :
    let result := skipZerosLoop n trailingZeros out
    result.2.reverse = writeBackLoop n out.reverse ∧
      result.1 + result.2.length = trailingZeros + out.length + (digitLoop n).length ∧
      (∀ c ∈ result.2, c.isDigit) ∧
      Nat.ofDigitChars 10 result.2.reverse 0 * 10 ^ result.1 =
        n * 10 ^ (trailingZeros + out.length) + Nat.ofDigitChars 10 out.reverse 0 * 10 ^ trailingZeros := by
  induction n using Nat.strongRecOn generalizing trailingZeros out with
  | ind n ih =>
    by_cases hp : 0 < n
    · have hsp := Nat.div_add_mod n 10
      by_cases hs : out = [] ∧ n % 10 = 0
      · obtain ⟨hr, hl, hdi, hv⟩ := ih (n / 10) (by omega) (trailingZeros + 1) out hd
        rw [skipZerosLoop, writeBackLoop, digitLoop, dif_pos hp, dif_pos hp, dif_pos hp, if_pos hs,
          if_neg (by simp [hs])]
        refine ⟨hr, by rw [hl, length_cons]; omega, hdi, hv.trans ?_⟩
        rw [hs.2, Nat.add_zero] at hsp
        conv => rhs; rw [← hsp]
        simp only [hs.1, length_nil, reverse_nil, Nat.ofDigitChars_nil]
        ring
      · have hlt := Nat.mod_lt n (show 0 < 10 by decide)
        have hw : out.reverse ≠ [] ∨ n % 10 ≠ 0 := by
          rw [Ne, reverse_eq_nil_iff]
          tauto
        obtain ⟨hr, hl, hdi, hv⟩ := ih (n / 10) (by omega) trailingZeros
          (out ++ [Nat.digitChar (n % 10)]) (forall_mem_append.mpr ⟨hd, by simp [hlt]⟩)
        rw [skipZerosLoop, writeBackLoop, digitLoop, dif_pos hp, dif_pos hp, dif_pos hp, if_neg hs,
          if_pos hw]
        rw [reverse_append] at hr
        refine ⟨hr, by rw [hl, length_append, length_cons, length_cons]; simp; omega, hdi, hv.trans ?_⟩
        conv => rhs; rw [← hsp]
        rw [reverse_append, reverse_singleton, singleton_append, Nat.ofDigitChars_cons,
          Nat.ofDigitChars_eq_ofDigitChars_zero, Nat.toNat_digitChar_of_lt_ten hlt, length_reverse, length_append]
        simp
        ring
    · rw [skipZerosLoop, writeBackLoop, digitLoop, dif_neg hp, dif_neg hp, dif_neg hp]
      obtain rfl : n = 0 := by omega
      exact ⟨rfl, rfl, hd, by rw [Nat.zero_mul, Nat.zero_add]⟩

theorem countDigits_truncate (precision : TimestampPrecision) (h : nanos < 1000000000) :
    countDigits (precision.truncate nanos) ≤ precision.width := by
  rw [countDigits_eq, Nat.length_toDigits_le_iff (by decide) (by cases precision <;> decide)]
  cases precision <;> simp only [TimestampPrecision.truncate, TimestampPrecision.width] <;> omega

/-- The fraction reads back as the truncated one; the digits that are left out are zeros. -/
theorem fraction_spec (h : nanos < 1000000000)
    (hz : ¬(options.skipTrailingZeros ∧ options.precision.truncate nanos = 0)) :
    fractionBackwards options nanos = fractionForwards options nanos ∧
      (fractionForwards options nanos).length ≤ options.precision.width ∧
      ∃ n, IsNumber n (fractionForwards options nanos) ∧
        n * 10 ^ (options.precision.width - (fractionForwards options nanos).length) =
          options.precision.truncate nanos := by
  have hw := countDigits_truncate options.precision h
  unfold fractionBackwards fractionForwards
  dsimp only
  generalize options.precision.truncate nanos = n at hz hw ⊢
  generalize options.precision.width = w at hw ⊢
  by_cases hs : options.skipTrailingZeros
  · have hp : 0 < n := Nat.pos_of_ne_zero fun h => hz ⟨hs, h⟩
    obtain ⟨hr, hl, hd, hv⟩ := skipZerosLoop_spec n 0 [] (fun _ h => nomatch h)
    rw [length_digitLoop hp] at hl
    rw [reverse_nil] at hr
    rw [if_pos hs, if_pos hs, ← hr]
    generalize skipZerosLoop n 0 [] = loop at hr hl hd hv ⊢
    obtain ⟨trailingZeros, out⟩ := loop
    simp only [length_nil, reverse_nil, Nat.ofDigitChars_nil] at hl hd hv ⊢
    have hn : IsNumber (Nat.ofDigitChars 10 out.reverse 0) out.reverse :=
      ⟨fun c hc => hd c (mem_reverse.mp hc), rfl⟩
    have hpa : w - trailingZeros - out.length = w - countDigits n := by omega
    have ht : (replicate (w - countDigits n) '0' ++ out.reverse).length = w - trailingZeros := by
      rw [length_append, length_replicate, length_reverse]
      omega
    rw [hpa, reverse_append, reverse_replicate, ht]
    refine ⟨rfl, by omega, _, hn.zeros _, ?_⟩
    rw [show w - (w - trailingZeros) = trailingZeros by omega, hv]
    omega
  · rw [if_neg hs, if_neg hs]
    have hl : (appendDigits w n).length = w := by
      rw [length_appendDigits, ← countDigits_eq]
      omega
    change _ = appendDigits w n ∧ (appendDigits w n).length ≤ w ∧
      ∃ m, IsNumber m (appendDigits w n) ∧ m * 10 ^ (w - (appendDigits w n).length) = n
    rw [hl]
    refine ⟨?_, le_rfl, n, isNumber_appendDigits, by simp⟩
    rw [appendDigits]
    by_cases hp : 0 < n
    · rw [reverse_append, digitLoop_eq n hp, reverse_replicate, length_digitLoop hp]
      rfl
    · obtain rfl : n = 0 := by omega
      rw [countDigits, if_pos (by decide)] at hw ⊢
      obtain ⟨k, rfl⟩ := Nat.exists_eq_add_of_le' hw
      rw [digitLoop, dif_neg (by decide), nil_append, reverse_replicate]
      exact replicate_succ'

theorem timeText_spec (ht : tm.InRange) (h : nanos < 1000000000) :
    let time := timeText options tm nanos (appendDigits 2) (fractionForwards options nanos)
    timeText options tm nanos appendSmallInt (fractionBackwards options nanos) = time ∧
      time.length ≤ 9 + options.precision.width ∧ ReadsTime options tm nanos time := by
  obtain ⟨_, _, _, _, hhour, hm, hs⟩ := ht
  have hour := isTwoDigits_appendDigits (show tm.hour < 100 by omega)
  have min := isTwoDigits_appendDigits (show tm.min < 100 by omega)
  have sec := isTwoDigits_appendDigits (show tm.sec < 100 by omega)
  unfold timeText
  rw [appendSmallInt_eq (by omega), appendSmallInt_eq (by omega), appendSmallInt_eq (by omega)]
  split_ifs with hz
  · refine ⟨rfl, ?_, _, _, _, _, rfl, hour, min, sec, .inl ⟨rfl, hz.2⟩⟩
    simp [hour.1, min.1, sec.1]
    omega
  · obtain ⟨heq, hl, n, hn, hv⟩ := fraction_spec h hz
    refine ⟨by rw [heq], ?_, _, _, _, _, rfl, hour, min, sec, .inr ⟨n, _, rfl, hn, hl, hv⟩⟩
    simp [hour.1, min.1, sec.1]
    omega

theorem dateText_spec (ht : tm.InRange) (hy : 1900 + tm.year ≤ 2147483647)
    (hz : options.zeroPaddingYear ∨ 1900 + tm.year ≠ 0) :
    let date := dateText tm (appendDigits 2) (yearForwards options (1900 + tm.year))
    dateText tm appendSmallInt (yearBackwards options (1900 + tm.year)) = date ∧ date.length ≤ 17 ∧
      ReadsDate options tm date := by
  obtain ⟨_, hl, hmon, hmday, _, _, _⟩ := ht
  have month := isTwoDigits_appendDigits (show tm.mon + 1 < 100 by omega)
  have day := isTwoDigits_appendDigits (show tm.mday < 100 by omega)
  have hd : (Nat.toDigits 10 (1900 + tm.year).natAbs).length ≤ 10 :=
    (Nat.length_toDigits_le_iff (by decide) (by decide)).mpr (by omega)
  unfold dateText
  rw [appendSmallInt_eq (by omega), appendSmallInt_eq (by omega), yearBackwards_eq hz]
  refine ⟨rfl, ?_, _, _, _, rfl, ?_, isNumber_appendDigits, month, day⟩
  · simp only [yearForwards, length_append, length_cons, length_appendDigits, month.1, day.1]
    split_ifs <;> simp <;> omega
  · simp [appendDigits]

/-- The year zero without padding has no digit in one text and one in the other. -/
theorem dateText_ne (hz : ¬(options.zeroPaddingYear ∨ 1900 + tm.year ≠ 0)) (rest rest' : List Char) :
    dateText tm appendSmallInt (yearBackwards options (1900 + tm.year)) ++ rest ≠
      dateText tm (appendDigits 2) (yearForwards options (1900 + tm.year)) ++ rest' := by
  rw [not_or, not_ne_iff] at hz
  have hb : yearBackwards options 0 = [] := by
    simp [yearBackwards, hz.1, leadingPositiveSign, digitLoop]
  have hf : yearForwards options 0 = ['0'] := by
    simp [yearForwards, hz.1, leadingPositiveSign, appendDigits, countDigits]
  rw [hz.2, hb, hf]
  simp [dateText]

end Texts

/-- The two renderers fail just for the year zero without padding and for years beyond an `int`. -/
theorem renders_iff {options : TimestampToStringOptions} {fuel : ℕ} {epoch : ℤ} {tm : Tm} {nanos : ℕ}
    (htm : epochToCalendarUtc fuel epoch = some tm) (hnanos : nanos < 1000000000) :
    Renders options tm nanos ↔ options.mode = .timeOnly ∨
      1900 + tm.year ≤ 2147483647 ∧ (options.zeroPaddingYear ∨ 1900 + tm.year ≠ 0) := by
  have hrange := inRange_of_epochToCalendarUtc htm
  obtain ⟨htime, htimeLength, htimeReads⟩ := @timeText_spec options tm nanos hrange hnanos
  unfold Renders tmToString tmToStringView layOut
  dsimp only
  rw [htime]
  generalize timeText options tm nanos (appendDigits 2) (fractionForwards options nanos) = time at htimeLength htimeReads
  by_cases hmode : options.mode = .timeOnly
  · simp only [if_pos hmode]
    refine iff_of_true ⟨time, rfl, rfl, ?_, htimeReads⟩ (.inl hmode)
    simpa only [getMaxStringLength, hmode] using htimeLength
  simp only [hmode, false_or]
  by_cases hyear : 1900 + tm.year ≤ 2147483647
  · rw [formYear, if_pos hyear]
    by_cases hzero : options.zeroPaddingYear ∨ 1900 + tm.year ≠ 0
    · obtain ⟨hdate, hlength, hreads⟩ := dateText_spec hrange hyear hzero
      refine iff_of_true ⟨_, congrArg (some <| · ++ _) hdate, rfl, ?_, _, _, rfl, hreads, ?_⟩ ⟨hyear, hzero⟩
      · rw [length_append, getMaxStringLength]
        cases hcase : options.mode <;> simp_all
        omega
      · split_ifs
        · rfl
        · exact ⟨time, rfl, htimeReads⟩
    · exact iff_of_false (fun ⟨_, hback, hview, _⟩ => dateText_ne hzero _ _ (Option.some.inj (hback.trans hview.symm)))
        fun h => hzero h.2
  · rw [formYear, if_neg hyear]
    exact iff_of_false (fun ⟨_, hback, _⟩ => nomatch hback) fun h => hyear h.1

/-- A quarter of a second before the end of a leap day. -/
theorem renders_iff_leapDay :
    let options : TimestampToStringOptions :=
      { precision := .milliseconds, skipTrailingZeros := true, zeroPaddingYear := true, dateTimeSeparator := 'T' }
    Renders options ⟨100, 1, 29, 23, 59, 59⟩ 750000000 :=
  (@renders_iff _ 5 951868799 _ 750000000 (by decide) (by decide)).mpr (.inr (by decide))

/-- The first day of the year zero, as a date without padding. -/
theorem yearZero_differs :
    let options : TimestampToStringOptions := { mode := .dateOnly }
    epochToCalendarUtc 5 (-62167219200) = some ⟨-1900, 0, 1, 0, 0, 0⟩ ∧
      tmToString options ⟨-1900, 0, 1, 0, 0, 0⟩ 0 ≠ tmToStringView options ⟨-1900, 0, 1, 0, 0, 0⟩ 0 :=
  ⟨by decide, fun h => dateText_ne (by decide) [] [] (Option.some.inj h)⟩

end Bolt.Functions
