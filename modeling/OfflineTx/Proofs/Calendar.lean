import Mathlib.Algebra.Order.BigOperators.Group.List
import Mathlib.Tactic.IntervalCases
import Mathlib.Tactic.Ring
import OfflineTx.Text.Timestamp

/-!
# The Gregorian calendar

A year has the months of `monthLengths`, and the day of a date is counted by adding up whole years
and whole months from 1970 on (`Date.dayNumber`). A date found for a day is one of the calendar, and
counting leads back to the day (`Date.valid_ofDays`, `Date.dayNumber_ofDays`). Later days have later
dates (`Date.ofDays_before_iff`).
-/

namespace OfflineTx.Timestamp

section Years

def Leap (year : Int) : Prop :=
  year % 4 = 0 ∧ (year % 100 ≠ 0 ∨ year % 400 = 0)

instance (year : Int) : Decidable (Leap year) :=
  inferInstanceAs (Decidable (_ ∧ _))

def monthLengths (year : Int) : List Int :=
  [31, if Leap year then 29 else 28, 31, 30, 31, 30, 31, 31, 30, 31, 30, 31]

def yearLength (year : Int) : Int :=
  (monthLengths year).sum

/-- The days of the first `n` years from 1970 on. -/
def daysOfYears : Nat → Int
  | 0 => 0
  | n + 1 => daysOfYears n + yearLength (1970 + n)

/-- The leap days up to the end of a year. -/
def leapDays (year : Int) : Int :=
  year / 4 - year / 100 + year / 400

variable {year : Int}

theorem leapDays_sub_one (year : Int) :
    leapDays year = leapDays (year - 1) + if Leap year then 1 else 0 := by
  by_cases h : Leap year
  · rw [if_pos h]
    unfold Leap at h
    unfold leapDays
    omega
  · rw [if_neg h]
    unfold Leap at h
    unfold leapDays
    omega

theorem february_eq (year : Int) :
    (if Leap year then 29 else 28) = 28 + (leapDays year - leapDays (year - 1)) := by
  have h := leapDays_sub_one year
  split at h
  · rename_i hleap
    rw [if_pos hleap]
    omega
  · rename_i hleap
    rw [if_neg hleap]
    omega

theorem yearLength_eq (year : Int) :
    yearLength year = 365 + (leapDays year - leapDays (year - 1)) := by
  rw [yearLength, monthLengths, february_eq]
  simp only [List.sum_cons, List.sum_nil]
  omega

theorem monthLengths_bounds (year : Int) :
    ∀ length ∈ monthLengths year, 0 ≤ length ∧ length ≤ 31 := by
  unfold monthLengths
  split <;> decide

theorem monthLength_bounds (year : Int) (k : Nat) :
    0 ≤ (monthLengths year).getD k 0 ∧ (monthLengths year).getD k 0 ≤ 31 := by
  rw [List.getD_eq_getElem?_getD]
  rcases h : (monthLengths year)[k]? with _ | length
  · decide
  · exact monthLengths_bounds year length (List.mem_of_getElem? h)

theorem daysOfYears_eq : ∀ n : Nat, daysOfYears n = 365 * n + (leapDays (1969 + n) - leapDays 1969)
  | 0 => by simp [daysOfYears]
  | n + 1 => by
    have hyear : (1970 + n : Int) - 1 = 1969 + n := by omega
    have hnext : (1969 + (n + 1 : Nat) : Int) = 1970 + n := by omega
    rw [daysOfYears, daysOfYears_eq n, yearLength_eq, hyear, hnext]
    push_cast
    omega

end Years

namespace Date

/-- A day of a month of the calendar. -/
structure Valid (d : Date) : Prop where
  month_pos : 1 ≤ d.month
  month_le : d.month ≤ 12
  day_pos : 1 ≤ d.day
  day_le : d.day ≤ (monthLengths d.year).getD (d.month - 1).toNat 0

/-- The day of a date from 1970 on, counted by whole years, whole months and days. -/
def dayNumber (d : Date) : Int :=
  daysOfYears (d.year - 1970).toNat + ((monthLengths d.year).take (d.month - 1).toNat).sum +
    (d.day - 1)

variable {d : Date} {n : Int}

theorem Valid.day_le_31 (h : d.Valid) : d.day ≤ 31 :=
  h.day_le.trans (monthLength_bounds _ _).2

/-- The months from March on take turns of 153 days for five of them. -/
theorem sum_take_monthLengths (year : Int) {m : Nat} (hmarch : 2 ≤ m) (hm : m < 12) :
    ((monthLengths year).take m).sum = (153 * ((m : Int) - 2) + 2) / 5 + 59 +
      (leapDays year - leapDays (year - 1)) := by
  rw [monthLengths, february_eq]
  interval_cases m <;> simp <;> ring

/-- The day on which a year begins, counted from the year 1970. -/
def yearStart (year : Int) : Int :=
  365 * (year - 1970) + (leapDays (year - 1) - leapDays 1969)

theorem toDays_eq (h : d.Valid) : d.toDays =
    yearStart d.year + ((monthLengths d.year).take (d.month - 1).toNat).sum + (d.day - 1) := by
  obtain ⟨year, month, day⟩ := d
  obtain ⟨hmonth, hmonth', -, -⟩ := h
  dsimp only at hmonth hmonth' ⊢
  rw [toDays, yearStart]
  dsimp only
  by_cases hmarch : 3 ≤ month
  · rw [sum_take_monthLengths year (by omega) (by omega)]
    unfold leapDays
    simp only [show ¬month ≤ 2 by omega, if_false]
    omega
  · have hdays : ((monthLengths year).take (month - 1).toNat).sum = 31 * (month - 1) := by
      obtain rfl | rfl : month = 1 ∨ month = 2 := by omega
      · rfl
      · rfl
    rw [hdays]
    unfold leapDays
    simp only [show month ≤ 2 by omega, if_true]
    omega

theorem dayNumber_eq_toDays (h : d.Valid) (hyear : 1970 ≤ d.year) : d.dayNumber = d.toDays := by
  have hyears : (1969 + ((d.year - 1970).toNat : Int)) = d.year - 1 := by omega
  have hcount : ((d.year - 1970).toNat : Int) = d.year - 1970 := by omega
  rw [toDays_eq h, dayNumber, daysOfYears_eq, hyears, hcount, yearStart]

/-- The date of the `t`-th day of the year that begins in March. -/
def fromMarch (year t : Int) : Date :=
  let month := if (5 * t + 2) / 153 < 10 then (5 * t + 2) / 153 + 3 else (5 * t + 2) / 153 - 9
  { year := year + if month ≤ 2 then 1 else 0
    month := month
    day := t - (153 * ((5 * t + 2) / 153) + 2) / 5 + 1 }

/-- The days from the first of March of the year zero to that of another year. -/
def daysToMarch (year : Int) : Int :=
  365 * year + leapDays year

/-- A day of an era by centuries, groups of four years, years from March on, and days. A year has a
last day beyond 365 if it is the last of its group, and at the end of a century only in the last. -/
structure Placed (dayOfEra c q y t : Int) : Prop where
  eq : dayOfEra = 36524 * c + 1461 * q + 365 * y + t
  century : 0 ≤ c ∧ c ≤ 3
  group : 0 ≤ q ∧ q ≤ 24
  year : 0 ≤ y ∧ y ≤ 3
  day : 0 ≤ t ∧ t ≤ 365
  last : t = 365 → y = 3 ∧ (q = 24 → c = 3)

theorem exists_placed {dayOfEra : Int} (h : 0 ≤ dayOfEra) (hlt : dayOfEra < 146097) :
    ∃ c q y t, Placed dayOfEra c q y t := by
  obtain ⟨c, r, hr, hc, hrest, hlast⟩ : ∃ c r : Int, dayOfEra = 36524 * c + r ∧ (0 ≤ c ∧ c ≤ 3) ∧
      (0 ≤ r ∧ r ≤ 36524) ∧ (r = 36524 → c = 3) := by
    by_cases hend : dayOfEra = 146096
    · exact ⟨3, 36524, by omega⟩
    · exact ⟨dayOfEra / 36524, dayOfEra % 36524, by omega⟩
  obtain ⟨y, t, ht, hy, hday, hlong⟩ : ∃ y t : Int, r % 1461 = 365 * y + t ∧ (0 ≤ y ∧ y ≤ 3) ∧
      (0 ≤ t ∧ t ≤ 365) ∧ (t = 365 → y = 3) := by
    by_cases hend : r % 1461 = 1460
    · exact ⟨3, 365, by omega⟩
    · exact ⟨r % 1461 / 365, r % 1461 % 365, by omega⟩
  exact ⟨c, r / 1461, y, t, by omega, hc, by omega, hy, hday, fun h => ⟨hlong h, by omega⟩⟩

/-- The leap days that have passed are taken off before the days are counted by years of 365. -/
theorem Placed.yearOfEra_eq {dayOfEra c q y t : Int} (h : Placed dayOfEra c q y t) :
    (dayOfEra - dayOfEra / 1460 + dayOfEra / 36524 - dayOfEra / 146096) / 365 =
      100 * c + 4 * q + y := by
  obtain ⟨heq, hc, hq, hy, ht, hlast⟩ := h
  have hgroups : dayOfEra / 1460 = 25 * c + q + (24 * c + q + 365 * y + t) / 1460 := by omega
  by_cases hend : dayOfEra = 146096
  · obtain rfl : c = 3 := by omega
    obtain rfl : q = 24 := by omega
    rw [hend]
    omega
  · have hcentury : dayOfEra / 36524 = c := by omega
    have hera : dayOfEra / 146096 = 0 := by omega
    rw [hgroups, hcentury, hera]
    omega

theorem Placed.leapDays_eq {dayOfEra c q y t : Int} (h : Placed dayOfEra c q y t) (era : Int) :
    leapDays (100 * c + 4 * q + y + era * 400) = 24 * c + q + 97 * era := by
  obtain ⟨-, hc, hq, hy, -, -⟩ := h
  have h4 : (100 * c + 4 * q + y + era * 400) / 4 = 25 * c + q + 100 * era := by omega
  have h100 : (100 * c + 4 * q + y + era * 400) / 100 = c + 4 * era := by omega
  have h400 : (100 * c + 4 * q + y + era * 400) / 400 = era := by omega
  rw [leapDays, h4, h100, h400]
  omega

/-- A last day beyond 365 is the leap day of the year that begins before the next March. -/
theorem Placed.leap {dayOfEra c q y t : Int} (h : Placed dayOfEra c q y t) (era : Int)
    (ht : t = 365) : Leap (100 * c + 4 * q + y + era * 400 + 1) := by
  obtain ⟨-, hc, hq, -, -, hlast⟩ := h
  obtain ⟨rfl, hcentury⟩ := hlast ht
  by_cases hend : q = 24
  · obtain rfl := hcentury hend
    exact ⟨by omega, .inr (by omega)⟩
  · exact ⟨by omega, .inl (by omega)⟩

theorem ofDays_eq (n : Int) : ∃ year t, ofDays n = fromMarch year t ∧
    n + 719468 = daysToMarch year + t ∧ 0 ≤ t ∧ t ≤ 365 ∧ (t = 365 → Leap (year + 1)) := by
  obtain ⟨c, q, y, t, h⟩ := exists_placed (show 0 ≤ (n + 719468) % 146097 by omega) (by omega)
  have hday : (n + 719468) % 146097 - (365 * (100 * c + 4 * q + y) + (100 * c + 4 * q + y) / 4 -
      (100 * c + 4 * q + y) / 100) = t := by
    have hc := h.century
    have hq := h.group
    have hy := h.year
    have h4 : (100 * c + 4 * q + y) / 4 = 25 * c + q := by omega
    have h100 : (100 * c + 4 * q + y) / 100 = c := by omega
    rw [h4, h100, h.eq]
    omega
  refine ⟨100 * c + 4 * q + y + (n + 719468) / 146097 * 400, t, ?_, ?_, h.day.1, h.day.2,
    h.leap _⟩
  · simp only [ofDays, h.yearOfEra_eq, hday, fromMarch]
  · have heq := h.eq
    rw [daysToMarch, h.leapDays_eq]
    omega

variable {year t : Int}

/-- Counting by eras is counting by years from March on. -/
theorem daysToMarch_eq (year : Int) : daysToMarch year =
    year / 400 * 146097 + (year % 400 * 365 + year % 400 / 4 - year % 400 / 100) := by
  have h4 : year % 400 / 4 = year / 4 - 100 * (year / 400) := by omega
  have h100 : year % 400 / 100 = year / 100 - 4 * (year / 400) := by omega
  rw [daysToMarch, leapDays, h4, h100]
  omega

theorem toDays_fromMarch (h : 0 ≤ t) (hle : t ≤ 365) :
    (fromMarch year t).toDays = daysToMarch year + t - 719468 := by
  rw [daysToMarch_eq]
  by_cases hmarch : (5 * t + 2) / 153 < 10
  · have hmonth : ¬(5 * t + 2) / 153 + 3 ≤ 2 := by omega
    simp only [fromMarch, toDays, hmarch, if_true, hmonth, if_false, Int.add_zero,
      Int.add_sub_cancel]
    ring
  · have hmonth : (5 * t + 2) / 153 - 9 ≤ 2 := by omega
    simp only [fromMarch, toDays, hmarch, if_true, hmonth, if_false, Int.add_sub_cancel,
      Int.sub_add_cancel]
    ring

theorem monthLengths_fromMarch (year : Int) {m : Nat} (hm : m < 10) :
    (monthLengths year).getD (m + 2) 0 = (153 * (m + 1 : Int) + 2) / 5 - (153 * m + 2) / 5 := by
  interval_cases m <;> rfl

theorem valid_fromMarch (h : 0 ≤ t) (hle : t ≤ 365) (hleap : t = 365 → Leap (year + 1)) :
    (fromMarch year t).Valid := by
  obtain ⟨m, hm, hmonth⟩ : ∃ m : Nat, m < 12 ∧ (5 * t + 2) / 153 = m :=
    ⟨((5 * t + 2) / 153).toNat, by omega⟩
  -- The months up to December are in the year of their March, the last two in the next.
  by_cases hmarch : m < 10
  · have hwithin : (m + 3 : Int) - 1 = (m + 2 : Nat) := by omega
    have hlength := monthLengths_fromMarch year hmarch
    have hfrom : fromMarch year t = ⟨year, m + 3, t - (153 * m + 2) / 5 + 1⟩ := by
      have hlt : (m : Int) < 10 := by omega
      have hlate : ¬(m + 3 : Int) ≤ 2 := by omega
      simp only [fromMarch, hmonth, hlt, if_true, hlate, if_false, Int.add_zero]
    rw [hfrom]
    refine ⟨by dsimp only; omega, by dsimp only; omega, by dsimp only; omega, ?_⟩
    dsimp only
    rw [hwithin, Int.toNat_natCast, hlength]
    omega
  · have hfrom : fromMarch year t = ⟨year + 1, m - 9, t - (153 * m + 2) / 5 + 1⟩ := by
      have hlt : ¬(m : Int) < 10 := by omega
      have hearly : (m - 9 : Int) ≤ 2 := by omega
      simp only [fromMarch, hmonth, hlt, if_false, hearly, if_true]
    rw [hfrom]
    obtain rfl | rfl : m = 10 ∨ m = 11 := by omega
    · refine ⟨by dsimp only; omega, by dsimp only; omega, by dsimp only; omega, ?_⟩
      change _ ≤ (31 : Int)
      dsimp only
      omega
    · refine ⟨by dsimp only; omega, by dsimp only; omega, by dsimp only; omega, ?_⟩
      change _ ≤ (if Leap (year + 1) then 29 else 28 : Int)
      dsimp only
      split
      · omega
      · rename_i hnot
        have hshort : t ≠ 365 := fun ht => hnot (hleap ht)
        omega

theorem valid_ofDays (n : Int) : (ofDays n).Valid := by
  obtain ⟨year, t, hdate, -, ht, hle, hleap⟩ := ofDays_eq n
  rw [hdate]
  exact valid_fromMarch ht hle hleap

theorem toDays_ofDays (n : Int) : (ofDays n).toDays = n := by
  obtain ⟨year, t, hdate, hn, ht, hle, -⟩ := ofDays_eq n
  rw [hdate, toDays_fromMarch ht hle]
  omega

theorem le_year_ofDays (h : 0 ≤ n) : 1970 ≤ (ofDays n).year := by
  obtain ⟨year, t, hdate, hn, ht, hle, -⟩ := ofDays_eq n
  rw [hdate, fromMarch]
  unfold daysToMarch leapDays at hn
  dsimp only
  split
  · split <;> omega
  · split <;> omega

/-- The last date with a year of four digits is that of day 2932896. -/
theorem year_ofDays_lt (h : n ≤ 2932896) : (ofDays n).year < 10000 := by
  obtain ⟨year, t, hdate, hn, ht, hle, -⟩ := ofDays_eq n
  rw [hdate, fromMarch]
  unfold daysToMarch leapDays at hn
  dsimp only
  split
  · split <;> omega
  · split <;> omega

theorem dayNumber_ofDays (h : 0 ≤ n) : (ofDays n).dayNumber = n := by
  rw [dayNumber_eq_toDays (valid_ofDays n) (le_year_ofDays h), toDays_ofDays]

/-- An earlier year, or an earlier month of the year, or an earlier day of the month. -/
def Before (d d' : Date) : Prop :=
  d.year < d'.year ∨ d.year = d'.year ∧
    (d.month < d'.month ∨ d.month = d'.month ∧ d.day < d'.day)

theorem sum_take_succ (year : Int) {k : Nat} (hk : k < 12) :
    ((monthLengths year).take (k + 1)).sum =
      ((monthLengths year).take k).sum + (monthLengths year).getD k 0 := by
  have hlength : k < (monthLengths year).length := hk
  rw [List.sum_take_succ _ _ hlength, List.getD_eq_getElem?_getD,
    List.getElem?_eq_getElem hlength, Option.getD_some]

theorem sum_take_add_le (year : Int) {j : Nat} : ∀ {k : Nat}, j < k → k ≤ 12 →
    ((monthLengths year).take j).sum + (monthLengths year).getD j 0 ≤
      ((monthLengths year).take k).sum
  | k + 1, hjk, hk => by
    rw [sum_take_succ year hk]
    rcases Nat.lt_succ_iff_lt_or_eq.1 hjk with hjk | rfl
    · have := sum_take_add_le year hjk (Nat.le_of_lt hk)
      have := (monthLength_bounds year k).1
      omega
    · exact le_rfl

theorem yearStart_add (year : Int) :
    yearStart (year + 1) = yearStart year + ((monthLengths year).take 12).sum := by
  have hlength : ((monthLengths year).take 12).sum = _ := yearLength_eq year
  rw [hlength, yearStart, yearStart, Int.add_sub_cancel]
  omega

theorem yearStart_mono {year year' : Int} (h : year ≤ year') :
    yearStart year ≤ yearStart year' := by
  unfold yearStart leapDays
  omega

/-- An earlier date is that of an earlier day. -/
theorem toDays_lt {d' : Date} (h : d.Valid) (h' : d'.Valid) (hlt : d.Before d') :
    d.toDays < d'.toDays := by
  have hday := h.day_le
  have hmonth := h.month_pos
  have hmonth' := h'.month_pos
  have hday' := h'.day_pos
  have hle := h.month_le
  have hle' := h'.month_le
  rw [toDays_eq h, toDays_eq h']
  rcases hlt with hyear | ⟨hyear, hlate | ⟨hsame, hlate⟩⟩
  · have hend := sum_take_add_le d.year (show (d.month - 1).toNat < 12 by omega) le_rfl
    have hnext := yearStart_add d.year
    have hmono := yearStart_mono (show d.year + 1 ≤ d'.year by omega)
    have hstart : 0 ≤ ((monthLengths d'.year).take (d'.month - 1).toNat).sum :=
      List.sum_nonneg fun length h => (monthLengths_bounds _ length (List.mem_of_mem_take h)).1
    omega
  · rw [← hyear]
    have hend := sum_take_add_le d.year
      (show (d.month - 1).toNat < (d'.month - 1).toNat by omega) (by omega)
    omega
  · rw [← hyear, ← hsame]
    omega

theorem before_trichotomy (d d' : Date) : d.Before d' ∨ d = d' ∨ d'.Before d := by
  obtain ⟨year, month, day⟩ := d
  obtain ⟨year', month', day'⟩ := d'
  simp only [Before, Date.mk.injEq]
  omega

theorem ofDays_inj {n' : Int} : ofDays n = ofDays n' ↔ n = n' := by
  refine ⟨fun h => ?_, congrArg ofDays⟩
  rw [← toDays_ofDays n, h, toDays_ofDays]

theorem ofDays_before_iff {n' : Int} : (ofDays n).Before (ofDays n') ↔ n < n' := by
  have hlt : ∀ {a b : Int}, (ofDays a).Before (ofDays b) → a < b := fun {a b} h => by
    have := toDays_lt (valid_ofDays a) (valid_ofDays b) h
    rwa [toDays_ofDays, toDays_ofDays] at this
  refine ⟨hlt, fun h => ?_⟩
  rcases before_trichotomy (ofDays n) (ofDays n') with hbefore | heq | hafter
  · exact hbefore
  · have := ofDays_inj.1 heq
    omega
  · have := hlt hafter
    omega

end Date

end OfflineTx.Timestamp
