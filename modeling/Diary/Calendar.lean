/-
Diary/Calendar.lean

The proleptic Gregorian calendar over the integers.

A day is a number, 0 for 1 January of year 1.  `dayNumber` computes it from
a year, a month and a day, each counted from 0 but the year, and does not
ask whether the month has that day.  A `Date` has only days its month has,
and is the same thing as a day number (`Date.number`, `Date.ofNumber`): the
year is found by an estimate, month and day by walking the lengths of the
months (`locate`).
-/
import Mathlib.Data.List.Basic
import Mathlib.Data.Int.SuccPred
import Mathlib.Order.SuccPred.LinearLocallyFinite
import Mathlib.Tactic

namespace Calendar

/-! ### Walking lengths -/

/-- The interval that holds `d` when intervals of the given lengths are laid
end to end, and the place in it. -/
def locate : List ℕ → ℕ → ℕ × ℕ
  | [], d => (0, d)
  | l :: ls, d => if d < l then (0, d) else ((locate ls (d - l)).1 + 1, (locate ls (d - l)).2)

theorem locate_spec {ls : List ℕ} {d : ℕ} (h : d < ls.sum) :
    ∃ l, ls[(locate ls d).1]? = some l ∧ (locate ls d).2 < l ∧
      (ls.take (locate ls d).1).sum + (locate ls d).2 = d := by
  induction ls generalizing d with
  | nil => exact absurd h (Nat.not_lt_zero d)
  | cons l ls ih =>
      rw [locate]
      split
      · next hd => exact ⟨l, rfl, hd, Nat.zero_add d⟩
      · next hd =>
        rw [List.sum_cons] at h
        obtain ⟨l', hl', hlt, hsum⟩ := ih (d := d - l) (by omega)
        refine ⟨l', hl', hlt, ?_⟩
        show ((l :: ls).take ((locate ls (d - l)).1 + 1)).sum + _ = d
        rw [List.take_succ_cons, List.sum_cons]
        omega

theorem locate_sum {ls : List ℕ} {i l d : ℕ} (hi : ls[i]? = some l) (hd : d < l) :
    locate ls ((ls.take i).sum + d) = (i, d) := by
  induction ls generalizing i with
  | nil => cases hi
  | cons k ls ih =>
      cases i with
      | zero =>
          obtain rfl : k = l := Option.some.inj hi
          rw [List.take_zero, List.sum_nil, Nat.zero_add, locate, if_pos hd]
      | succ i =>
          have hrest : k + (ls.take i).sum + d - k = (ls.take i).sum + d := by omega
          rw [List.take_succ_cons, List.sum_cons, locate, if_neg (by omega), hrest, ih hi]

theorem lt_sum_of_getElem? {ls : List ℕ} {i l d : ℕ} (hi : ls[i]? = some l) (hd : d < l) :
    (ls.take i).sum + d < ls.sum := by
  obtain ⟨hlt, rfl⟩ := List.getElem?_eq_some_iff.mp hi
  have hsplit := List.sum_take_add_sum_drop ls i
  rw [List.drop_eq_getElem_cons hlt, List.sum_cons] at hsplit
  omega

/-! ### Years -/

/-- A leap year. -/
def IsLeap (y : ℤ) : Prop := 4 ∣ y ∧ (100 ∣ y → 400 ∣ y)

instance (y : ℤ) : Decidable (IsLeap y) := inferInstanceAs (Decidable (_ ∧ _))

/-- The lengths of the months, January first. -/
def months (y : ℤ) : List ℕ :=
  [31, if IsLeap y then 29 else 28, 31, 30, 31, 30, 31, 31, 30, 31, 30, 31]

def yearLength (y : ℤ) : ℤ := if IsLeap y then 366 else 365

/-- The number of 1 January. -/
def newYear (y : ℤ) : ℤ := 365 * (y - 1) + (y - 1) / 4 - (y - 1) / 100 + (y - 1) / 400

theorem sum_months (y : ℤ) : ((months y).sum : ℤ) = yearLength y := by
  rw [months, yearLength]
  split <;> rfl

theorem yearLength_pos (y : ℤ) : 0 < yearLength y := by
  rw [yearLength]
  split <;> decide

theorem newYear_succ (y : ℤ) : newYear (y + 1) = newYear y + yearLength y := by
  rw [newYear, newYear, yearLength]
  split
  · next h =>
    rw [IsLeap] at h
    omega
  · next h =>
    rw [IsLeap] at h
    omega

theorem newYear_strictMono : StrictMono newYear :=
  strictMono_int_of_lt_succ fun y => by
    rw [newYear_succ]
    exact lt_add_of_pos_right _ (yearLength_pos y)

/-- The year of a day: an estimate by the mean length of a year is wrong by
at most one. -/
def yearOf (n : ℤ) : ℤ :=
  let y := 400 * n / 146097 + 1
  if n < newYear y then y - 1 else if newYear (y + 1) ≤ n then y + 1 else y

theorem yearOf_spec (n : ℤ) : newYear (yearOf n) ≤ n ∧ n < newYear (yearOf n + 1) := by
  -- 400 years have 146097 days
  have hlow : newYear (400 * n / 146097 + 1 - 1) ≤ n := by
    rw [newYear]
    omega
  have hhigh : n < newYear (400 * n / 146097 + 1 + 1 + 1) := by
    rw [newYear]
    omega
  simp only [yearOf]
  split
  · next h => exact ⟨hlow, by rwa [sub_add_cancel]⟩
  split
  · next h => exact ⟨h, hhigh⟩
  · next h h' => exact ⟨not_lt.mp h, not_le.mp h'⟩

/-- The year is the one whose days include the day. -/
theorem yearOf_eq {n y : ℤ} (hlow : newYear y ≤ n) (hhigh : n < newYear (y + 1)) :
    yearOf n = y := by
  obtain ⟨hlow', hhigh'⟩ := yearOf_spec n
  have hle : yearOf n < y + 1 := newYear_strictMono.lt_iff_lt.mp (hlow'.trans_lt hhigh)
  have hge : y < yearOf n + 1 := newYear_strictMono.lt_iff_lt.mp (hlow.trans_lt hhigh')
  omega

/-- The days before a New Year are those of the years before. -/
theorem yearOf_lt_iff (n y : ℤ) : yearOf n < y ↔ n < newYear y := by
  obtain ⟨hlow, hhigh⟩ := yearOf_spec n
  constructor
  · intro h
    exact hhigh.trans_le (newYear_strictMono.monotone (Int.add_one_le_iff.mpr h))
  · intro h
    exact newYear_strictMono.lt_iff_lt.mp (hlow.trans_lt h)

/-! ### Dates -/

/-- The number of a day, which may be beyond the end of its month. -/
def dayNumber (y : ℤ) (m d : ℕ) : ℤ := newYear y + (((months y).take m).sum + d : ℕ)

theorem dayNumber_zero_add (y : ℤ) (m d : ℕ) : dayNumber y m 0 + d = dayNumber y m d := by
  rw [dayNumber, dayNumber]
  omega

/-- A day beyond the end of its month is still in its year, up to the 31st. -/
theorem yearOf_dayNumber (y : ℤ) {m d : ℕ} (hm : m < 12) (hd : d < 31) :
    yearOf (dayNumber y m d) = y := by
  have hsum : ((months y).take m).sum + d < (months y).sum := by
    -- month by month, in a leap year and in any other
    rw [months]
    interval_cases m <;> simp only [List.take_succ_cons, List.take_zero, List.sum_cons,
      List.sum_nil] <;> split <;> omega
  apply yearOf_eq
  · rw [dayNumber]
    exact le_add_of_nonneg_right (Int.natCast_nonneg _)
  · rw [dayNumber, newYear_succ, ← sum_months]
    omega

/-- The year has the month and the month has the day, both counted from 0. -/
def HasDay (y : ℤ) (m d : ℕ) : Prop := ∃ l, (months y)[m]? = some l ∧ d < l

theorem lt_of_hasDay {y : ℤ} {m d : ℕ} (h : HasDay y m d) : m < 12 ∧ d < 31 := by
  obtain ⟨l, hl, hd⟩ := h
  obtain ⟨hm, rfl⟩ := List.getElem?_eq_some_iff.mp hl
  have hlen : ∀ l ∈ months y, l ≤ 31 := by
    rw [months]
    split <;> decide
  exact ⟨hm, hd.trans_le (hlen _ (List.getElem_mem hm))⟩

/-- A date: month and day counted from 0. -/
@[ext] structure Date where
  year : ℤ
  month : ℕ
  day : ℕ
  valid : HasDay year month day

namespace Date

def number (a : Date) : ℤ := dayNumber a.year a.month a.day

/-- The day of the year. -/
def dayOfYear (n : ℤ) : ℕ := (n - newYear (yearOf n)).toNat

theorem dayOfYear_spec (n : ℤ) :
    newYear (yearOf n) + dayOfYear n = n ∧ dayOfYear n < (months (yearOf n)).sum := by
  obtain ⟨hlow, hhigh⟩ := yearOf_spec n
  rw [newYear_succ, ← sum_months] at hhigh
  rw [dayOfYear]
  omega

/-- The date of a day. -/
def ofNumber (n : ℤ) : Date where
  year := yearOf n
  month := (locate (months (yearOf n)) (dayOfYear n)).1
  day := (locate (months (yearOf n)) (dayOfYear n)).2
  valid := by
    obtain ⟨l, hl, hlt, -⟩ := locate_spec (dayOfYear_spec n).2
    exact ⟨l, hl, hlt⟩

theorem number_ofNumber (n : ℤ) : (ofNumber n).number = n := by
  obtain ⟨l, -, -, hsum⟩ := locate_spec (dayOfYear_spec n).2
  exact (congrArg (fun k : ℕ => newYear (yearOf n) + k) hsum).trans (dayOfYear_spec n).1

/-- A date's number lies in its year. -/
theorem number_bounds (a : Date) :
    newYear a.year ≤ a.number ∧ a.number < newYear (a.year + 1) := by
  obtain ⟨l, hl, hlt⟩ := a.valid
  have hsum := lt_sum_of_getElem? hl hlt
  rw [newYear_succ, ← sum_months, number, dayNumber]
  omega

theorem ofNumber_number (a : Date) : ofNumber a.number = a := by
  obtain ⟨l, hl, hlt⟩ := a.valid
  have hyear : yearOf a.number = a.year := yearOf_eq a.number_bounds.1 a.number_bounds.2
  have hday : dayOfYear a.number = ((months a.year).take a.month).sum + a.day := by
    rw [dayOfYear, hyear, number, dayNumber, add_sub_cancel_left]
    exact Int.toNat_natCast _
  have hlocate := locate_sum hl hlt
  ext
  · exact hyear
  · show (locate (months (yearOf a.number)) (dayOfYear a.number)).1 = a.month
    rw [hyear, hday, hlocate]
  · show (locate (months (yearOf a.number)) (dayOfYear a.number)).2 = a.day
    rw [hyear, hday, hlocate]

/-- **When a day number is the date it was computed from**: when there is
that date.  Otherwise it is another one. -/
theorem ofNumber_dayNumber_iff {y : ℤ} {m d : ℕ} :
    ((ofNumber (dayNumber y m d)).year = y ∧ (ofNumber (dayNumber y m d)).month = m ∧
      (ofNumber (dayNumber y m d)).day = d) ↔ HasDay y m d := by
  constructor
  · rintro ⟨hyear, hmonth, hday⟩
    have hvalid := (ofNumber (dayNumber y m d)).valid
    rwa [hyear, hmonth, hday] at hvalid
  · intro h
    have hback := ofNumber_number ⟨y, m, d, h⟩
    exact ⟨congrArg year hback, congrArg month hback, congrArg day hback⟩

end Date

end Calendar
