import OfflineTx.Proofs.Bytes
import OfflineTx.Proofs.Calendar

/-!
# Time stamps and instants

A time stamp is a row of fields of fixed width, each with a mark behind it. The fields are read back
from the text (`readFields_writeFields`), and texts are ordered as their rows of fields are
(`writeFields_lt_iff`), because no field is shorter or longer than another in its place. The fields
of an instant are those of its date, hour, minute, second and microsecond, so a time stamp denotes
its instant down to the microsecond (`read?_render`), and later instants have later time stamps
(`render_lt_iff`).
-/

namespace OfflineTx

namespace Decimal

/-- The number that digits stand for. -/
def value (bs : Bytes) : Int :=
  bs.foldl (fun v b => 10 * v + ((b.toNat : Int) - 48)) 0

variable {k : Nat} {v w : Int}

theorem value_append (bs : Bytes) (b : UInt8) :
    value (bs ++ [b]) = 10 * value bs + (b.toNat - 48) := by
  rw [value, List.foldl_append]
  rfl

/-- The last digit of a number that is not negative. -/
theorem fixedWidth_succ (k : Nat) (h : 0 ≤ v) : ∃ b : UInt8, (b.toNat : Int) = 48 + v % 10 ∧
    fixedWidth (k + 1) v = fixedWidth k (v / 10) ++ [b] := by
  refine ⟨(48 + v % 10).toNat.toUInt8, ?_, ?_⟩
  · simp only [Nat.toUInt8, UInt8.toNat_ofNat']
    omega
  · rw [fixedWidth, Int.tdiv_eq_ediv_of_nonneg h, Int.tmod_eq_emod_of_nonneg h]

theorem isDigit_fixedWidth : ∀ (k : Nat) {v : Int}, 0 ≤ v → (fixedWidth k v).all isDigit = true
  | 0, _, _ => rfl
  | k + 1, v, h => by
    obtain ⟨b, hb, heq⟩ := fixedWidth_succ k h
    have hdigit : isDigit b = true := by
      simp only [isDigit, Bool.and_eq_true, decide_eq_true_eq, UInt8.le_iff_toNat_le]
      simp
      omega
    rw [heq, List.all_append, isDigit_fixedWidth k (by omega)]
    simp [hdigit]

theorem value_fixedWidth : ∀ (k : Nat) {v : Int}, 0 ≤ v → v < 10 ^ k → value (fixedWidth k v) = v
  | 0, v, h, hlt => by
    rw [pow_zero] at hlt
    have hzero : v = 0 := by omega
    rw [hzero]
    rfl
  | k + 1, v, h, hlt => by
    obtain ⟨b, hb, heq⟩ := fixedWidth_succ k h
    rw [pow_succ] at hlt
    rw [heq, value_append, value_fixedWidth k (by omega) (by omega), hb]
    omega

theorem fixedWidth_inj (hv : 0 ≤ v ∧ v < 10 ^ k) (hw : 0 ≤ w ∧ w < 10 ^ k) :
    fixedWidth k v = fixedWidth k w ↔ v = w := by
  refine ⟨fun h => ?_, congrArg (fixedWidth k)⟩
  rw [← value_fixedWidth k hv.1 hv.2, h, value_fixedWidth k hw.1 hw.2]

theorem fixedWidth_lt_iff : ∀ (k : Nat) {v w : Int}, (0 ≤ v ∧ v < 10 ^ k) → (0 ≤ w ∧ w < 10 ^ k) →
    (fixedWidth k v < fixedWidth k w ↔ v < w)
  | 0, v, w, hv, hw => by
    rw [pow_zero] at hv hw
    simp only [fixedWidth, List.not_lt_nil, false_iff]
    omega
  | k + 1, v, w, hv, hw => by
    obtain ⟨a, ha, heqv⟩ := fixedWidth_succ k hv.1
    obtain ⟨b, hb, heqw⟩ := fixedWidth_succ k hw.1
    rw [pow_succ] at hv hw
    have hv' : 0 ≤ v / 10 ∧ v / 10 < 10 ^ k := by omega
    have hw' : 0 ≤ w / 10 ∧ w / 10 < 10 ^ k := by omega
    rw [heqv, heqw, Bytes.append_lt_append_iff (by simp), fixedWidth_lt_iff k hv' hw',
      fixedWidth_inj hv' hw', List.cons_lt_cons_iff, UInt8.lt_iff_toNat_lt]
    simp only [List.not_lt_nil, and_false, or_false]
    omega

end Decimal

namespace Timestamp

section Fields

/-- The widths of fields, each with the mark behind the field. -/
abbrev Shape := List (Nat × UInt8)

def writeFields : Shape → List Int → Bytes
  | (width, mark) :: shape, v :: vs => Decimal.fixedWidth width v ++ mark :: writeFields shape vs
  | _, _ => []

/-- The fields of a text, if there are digits and marks where the shape has them. -/
def readFields : Shape → Bytes → Option (List Int)
  | [], text => if text.isEmpty then some [] else none
  | (width, mark) :: shape, text =>
    let digits := text.take width
    if digits.length = width ∧ digits.all Decimal.isDigit then
      match text.drop width with
      | [] => none
      | b :: rest =>
        if b = mark then (readFields shape rest).map (Decimal.value digits :: ·) else none
    else none

/-- There is a number for each field, of no more digits than the field has. -/
def Fits (shape : Shape) (vs : List Int) : Prop :=
  List.Forall₂ (fun field v => 0 ≤ v ∧ v < 10 ^ field.1) shape vs

variable {shape : Shape} {vs ws : List Int}

theorem length_writeFields (h : Fits shape vs) :
    (writeFields shape vs).length = (shape.map fun field => field.1 + 1).sum := by
  induction h with
  | nil => rfl
  | cons hv _ ih =>
    simp only [writeFields, List.length_append, Decimal.length_fixedWidth, List.length_cons, ih,
      List.map_cons, List.sum_cons]
    omega

theorem readFields_writeFields (h : Fits shape vs) :
    readFields shape (writeFields shape vs) = some vs := by
  induction h with
  | nil => rfl
  | @cons field v shape vs hv _ ih =>
    have hlength := Decimal.length_fixedWidth field.1 v
    have hdigits := Decimal.isDigit_fixedWidth field.1 hv.1
    simp only [writeFields, readFields, List.take_left' hlength, List.drop_left' hlength, hlength,
      hdigits, and_self, if_true, ih, Option.map_some, Decimal.value_fixedWidth _ hv.1 hv.2]

theorem writeFields_lt_iff (h : Fits shape vs) :
    ∀ {ws : List Int}, Fits shape ws → (writeFields shape vs < writeFields shape ws ↔ vs < ws) := by
  induction h with
  | nil =>
    intro ws hws
    cases hws
    simp [writeFields]
  | @cons field v shape vs hv _ ih =>
    intro ws hws
    cases hws with
    | @cons _ w _ ws hw hws =>
      rw [writeFields, writeFields, Bytes.append_lt_append_iff (by simp),
        Decimal.fixedWidth_lt_iff _ hv hw, Decimal.fixedWidth_inj hv hw, List.cons_lt_cons_iff,
        List.cons_lt_cons_iff, ih hws]
      simp

end Fields

/-- A date and a time of day in UTC. -/
structure Moment where
  date : Date
  hour : Int
  minute : Int
  second : Int
  micro : Int

namespace Moment

/-- A date of the calendar and a time of day. -/
structure Valid (t : Moment) : Prop where
  date : t.date.Valid
  hour : 0 ≤ t.hour ∧ t.hour < 24
  minute : 0 ≤ t.minute ∧ t.minute < 60
  second : 0 ≤ t.second ∧ t.second < 60
  micro : 0 ≤ t.micro ∧ t.micro < 1000000

/-- The microseconds from the beginning of 1970 on. -/
def micros (t : Moment) : Int :=
  (((t.date.dayNumber * 24 + t.hour) * 60 + t.minute) * 60 + t.second) * 1000000 + t.micro

def fields (t : Moment) : List Int :=
  [t.date.year, t.date.month, t.date.day, t.hour, t.minute, t.second, t.micro]

def ofFields? : List Int → Option Moment
  | [year, month, day, hour, minute, second, micro] =>
    some { date := { year, month, day }, hour, minute, second, micro }
  | _ => none

/-- The moment of a number of microseconds from 1970 on. -/
def ofMicros (n : Int) : Moment where
  date := .ofDays (n / 86400000000)
  hour := n / 3600000000 % 24
  minute := n / 60000000 % 60
  second := n / 1000000 % 60
  micro := n % 1000000

/-- A text with a year, a month, a day, an hour, a minute, a second and microseconds, as in
`YYYY-MM-DDThh:mm:ss.uuuuuuZ`. -/
def shape : Shape :=
  [(4, 45), (2, 45), (2, 84), (2, 58), (2, 58), (2, 46), (6, 90)]

/-- Reads a text as a moment. -/
def read? (text : Bytes) : Option Moment :=
  (readFields shape text).bind ofFields?

variable {n m nanos : Int}

theorem ofFields?_fields (t : Moment) : ofFields? t.fields = some t := rfl

theorem valid_ofMicros (n : Int) : (ofMicros n).Valid where
  date := Date.valid_ofDays _
  hour := ⟨Int.emod_nonneg _ (by decide), Int.emod_lt_of_pos _ (by decide)⟩
  minute := ⟨Int.emod_nonneg _ (by decide), Int.emod_lt_of_pos _ (by decide)⟩
  second := ⟨Int.emod_nonneg _ (by decide), Int.emod_lt_of_pos _ (by decide)⟩
  micro := ⟨Int.emod_nonneg _ (by decide), Int.emod_lt_of_pos _ (by decide)⟩

/-- The parts of a number of microseconds. -/
theorem micros_eq (n : Int) : (((n / 86400000000 * 24 + n / 3600000000 % 24) * 60 +
    n / 60000000 % 60) * 60 + n / 1000000 % 60) * 1000000 + n % 1000000 = n := by
  omega

theorem micros_ofMicros (h : 0 ≤ n) : (ofMicros n).micros = n := by
  rw [micros, ofMicros, Date.dayNumber_ofDays (by omega)]
  exact micros_eq n

theorem Valid.fits {t : Moment} (h : t.Valid) (hyear : 0 ≤ t.date.year ∧ t.date.year < 10000) :
    Fits shape t.fields := by
  have hmonth := h.date.month_pos
  have hmonth' := h.date.month_le
  have hday := h.date.day_pos
  have hday' := h.date.day_le_31
  have hhour := h.hour
  have hminute := h.minute
  have hsecond := h.second
  simp only [Fits, shape, fields, List.forall₂_cons, List.forall₂_nil_left_iff, and_true]
  refine ⟨hyear, ?_, ?_, ?_, ?_, ?_, h.micro⟩ <;> omega

/-- Moments are compared by their dates first, then by the time of the day. -/
theorem fields_lt_fields_iff {t t' : Moment} : t.fields < t'.fields ↔ t.date.Before t'.date ∨
    t.date = t'.date ∧ [t.hour, t.minute, t.second, t.micro] <
      [t'.hour, t'.minute, t'.second, t'.micro] := by
  obtain ⟨⟨year, month, day⟩, hour, minute, second, micro⟩ := t
  obtain ⟨⟨year', month', day'⟩, hour', minute', second', micro'⟩ := t'
  simp only [fields, List.cons_lt_cons_iff, Date.Before, Date.mk.injEq]
  tauto

/-- Comparing by whole parts of size `k` first, and then by what is left of them. -/
theorem lt_by_parts {k : Int} {P : Prop} (hk : 0 < k) :
    n / k < m / k ∨ n / k = m / k ∧ (n % k < m % k ∨ n % k = m % k ∧ P) ↔ n < m ∨ n = m ∧ P := by
  have hn := Int.mul_ediv_add_emod n k
  have hm := Int.mul_ediv_add_emod m k
  have hlt : ∀ {a b : Int}, a / k < b / k → a < b := fun {a b} h =>
    lt_of_not_ge fun hle => absurd (Int.ediv_le_ediv hk hle) (not_le_of_gt h)
  rcases lt_trichotomy (n / k) (m / k) with h | h | h
  · simp only [h, hlt h, true_or]
  · rw [h] at hn
    have hrest : n % k < m % k ↔ n < m := by omega
    have hsame : n % k = m % k ↔ n = m := by omega
    simp only [h, lt_irrefl, true_and, false_or, hrest, hsame]
  · simp only [h.not_gt, h.ne', (hlt h).not_gt, (hlt h).ne', false_and, or_self]

theorem fields_lt_iff : (ofMicros n).fields < (ofMicros m).fields ↔ n < m := by
  have hdays : ∀ n : Int, n / 86400000000 = n / 3600000000 / 24 := fun n => by omega
  have hhours : ∀ n : Int, n / 3600000000 = n / 60000000 / 60 := fun n => by omega
  have hminutes : ∀ n : Int, n / 60000000 = n / 1000000 / 60 := fun n => by omega
  simp only [fields_lt_fields_iff, ofMicros, Date.ofDays_before_iff, Date.ofDays_inj,
    List.cons_lt_cons_iff, hdays, hhours, hminutes]
  rw [lt_by_parts (by decide), lt_by_parts (by decide), lt_by_parts (by decide),
    lt_by_parts (by decide)]
  simp

theorem render_eq (h : 0 ≤ nanos) :
    render nanos = writeFields shape (ofMicros (nanos / 1000)).fields := by
  have hdays : nanos / 1000000000 / 86400 = nanos / 1000 / 86400000000 := by omega
  have hhour : nanos / 1000000000 % 86400 / 3600 = nanos / 1000 / 3600000000 % 24 := by omega
  have hminute : nanos / 1000000000 % 86400 % 3600 / 60 = nanos / 1000 / 60000000 % 60 := by omega
  have hsecond : nanos / 1000000000 % 86400 % 60 = nanos / 1000 / 1000000 % 60 := by omega
  have hmicro : nanos % 1000000000 / 1000 = nanos / 1000 % 1000000 := by omega
  have hrest : 0 ≤ nanos % 1000000000 := by omega
  simp only [render, Int.tdiv_eq_ediv_of_nonneg h, Int.tmod_eq_emod_of_nonneg h,
    Int.tdiv_eq_ediv_of_nonneg hrest, hdays, hhour, hminute, hsecond, hmicro, writeFields, shape,
    ofMicros, fields, List.append_assoc]
  rfl

/-- Nanoseconds of the years from 1970 to 9999. -/
def InRange (nanos : Int) : Prop :=
  0 ≤ nanos ∧ nanos < 253402300800000000000

theorem fits_ofMicros (h : InRange nanos) : Fits shape (ofMicros (nanos / 1000)).fields := by
  obtain ⟨hpos, hlt⟩ := h
  have hyear := Date.le_year_ofDays (show 0 ≤ nanos / 1000 / 86400000000 by omega)
  have hyear' := Date.year_ofDays_lt (show nanos / 1000 / 86400000000 ≤ 2932896 by omega)
  exact (valid_ofMicros _).fits ⟨le_trans (by decide) hyear, hyear'⟩

theorem length_render (h : InRange nanos) : (render nanos).length = 27 := by
  rw [render_eq h.1, length_writeFields (fits_ofMicros h)]
  rfl

theorem read?_render (h : InRange nanos) :
    read? (render nanos) = some (ofMicros (nanos / 1000)) := by
  rw [render_eq h.1, read?, readFields_writeFields (fits_ofMicros h), Option.bind_some,
    ofFields?_fields]

theorem render_lt_iff {nanos' : Int} (h : InRange nanos) (h' : InRange nanos') :
    render nanos < render nanos' ↔ nanos / 1000 < nanos' / 1000 := by
  rw [render_eq h.1, render_eq h'.1, writeFields_lt_iff (fits_ofMicros h) (fits_ofMicros h'),
    fields_lt_iff]

theorem render_eq_iff {nanos' : Int} (h : InRange nanos) (h' : InRange nanos') :
    render nanos = render nanos' ↔ nanos / 1000 = nanos' / 1000 := by
  refine ⟨fun heq => ?_, fun heq => by rw [render_eq h.1, render_eq h'.1, heq]⟩
  have hread := read?_render h
  rw [heq, read?_render h', Option.some.injEq] at hread
  obtain ⟨hpos, -⟩ := h
  obtain ⟨hpos', -⟩ := h'
  rw [← micros_ofMicros (show 0 ≤ nanos / 1000 by omega), ← hread,
    micros_ofMicros (show 0 ≤ nanos' / 1000 by omega)]

/-- The time stamp of a time of 63 bits is a date and a time of day in UTC, that of the time rounded
down to a microsecond. The time stamps of two times are in the order of the times, and are the same
for times within one microsecond only. -/
theorem denotes_in_order {nanos : Int} (h : 0 ≤ nanos) (hlt : nanos < 2 ^ 63) :
    (render nanos).length = 27 ∧
      (∃ t, read? (render nanos) = some t ∧ t.Valid ∧ t.micros = nanos / 1000) ∧
      ∀ later : Int, nanos ≤ later → later < 2 ^ 63 → render nanos ≤ render later ∧
        (render nanos = render later ↔ nanos / 1000 = later / 1000) := by
  have hrange : InRange nanos := ⟨h, by omega⟩
  refine ⟨length_render hrange, ⟨_, read?_render hrange, valid_ofMicros _,
    micros_ofMicros (by omega)⟩, fun later hle hlater => ?_⟩
  have hrange' : InRange later := ⟨by omega, by omega⟩
  refine ⟨?_, render_eq_iff hrange hrange'⟩
  rw [← List.not_lt, render_lt_iff hrange' hrange]
  omega

theorem denotes_in_order_last :
    (∃ t, read? (render 9223372036854774999) = some t ∧ t.Valid ∧ t.micros = 9223372036854774) ∧
      render 9223372036854774999 ≤ render 9223372036854775807 ∧
      render 9223372036854774999 ≠ render 9223372036854775807 := by
  obtain ⟨-, hread, hlater⟩ :=
    denotes_in_order (show 0 ≤ (9223372036854774999 : Int) by decide) (by decide)
  obtain ⟨hle, heq⟩ := hlater 9223372036854775807 (by decide) (by decide)
  exact ⟨hread, hle, fun h => absurd (heq.1 h) (by decide)⟩

example : render 9223372036854775807 = ascii "2262-04-11T23:47:16.854775Z" := by decide

end Moment

end Timestamp

end OfflineTx
