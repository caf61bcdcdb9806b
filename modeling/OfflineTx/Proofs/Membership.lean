import Mathlib.NumberTheory.LegendreSymbol.Basic
import Mathlib.Tactic.FieldSimp
import Mathlib.Tactic.LinearCombination
import OfflineTx.Curve.Membership
import OfflineTx.Proofs.Bytes
import OfflineTx.Proofs.Field

/-!
# Points of the curve

The equation of the curve gives the square of `x` as a quotient of two numbers that `y` determines
(`exists_onCurve_iff`). Since `-1` is a square modulo `p` and the constant of the curve is not, the
divisor is never zero (`divisor_ne_zero`), so that Euler's criterion alone decides whether there is
such an `x` (`hasAbscissa_iff`).
-/

namespace OfflineTx.Curve

/-- The constant of the curve. -/
def coefficient : ZMod p := -121665 / 121666

/-- The equation of the curve. -/
def OnCurve (x y : ZMod p) : Prop :=
  -x ^ 2 + y ^ 2 = 1 + coefficient * x ^ 2 * y ^ 2

section Equation

theorem coefficient_ne_zero : coefficient ≠ 0 := by
  rw [coefficient, ← cast_d, ne_eq, cast_eq_zero_iff]
  decide +kernel

theorem not_isSquare_coefficient : ¬IsSquare coefficient := by
  rw [ZMod.euler_criterion p coefficient_ne_zero, coefficient, ← cast_d,
    ← cast_pow (by decide), ← Nat.cast_one, cast_inj (pow_lt _ _) prime_p.one_lt]
  decide +kernel

theorem isSquare_neg_one : IsSquare (-1 : ZMod p) :=
  ZMod.exists_sq_eq_neg_one_iff.2 (by decide)

theorem divisor_ne_zero (y : ZMod p) : coefficient * y ^ 2 + 1 ≠ 0 := by
  intro h
  obtain ⟨i, hi⟩ := isSquare_neg_one
  have hy : y ≠ 0 := by
    rintro rfl
    rw [zero_pow two_ne_zero, mul_zero, zero_add] at h
    exact one_ne_zero h
  refine not_isSquare_coefficient ⟨i / y, ?_⟩
  field_simp
  linear_combination h + hi

theorem exists_onCurve_iff (y : ZMod p) :
    (∃ x, OnCurve x y) ↔ IsSquare ((y ^ 2 - 1) / (coefficient * y ^ 2 + 1)) := by
  have hne := divisor_ne_zero y
  constructor
  · rintro ⟨x, hx⟩
    refine ⟨x, ?_⟩
    rw [div_eq_iff hne]
    rw [OnCurve] at hx
    linear_combination hx
  · rintro ⟨x, hx⟩
    refine ⟨x, ?_⟩
    rw [div_eq_iff hne] at hx
    rw [OnCurve]
    linear_combination hx

end Equation

section Criterion

variable {y q : Nat}

theorem cast_divisor (y : Nat) :
    (add (mul d (mul y y)) 1 : ZMod p) = coefficient * (y : ZMod p) ^ 2 + 1 := by
  rw [cast_add, cast_mul, cast_mul, cast_d, coefficient, Nat.cast_one, sq]

theorem inverse?_divisor (y : Nat) : ∃ r, inverse? (add (mul d (mul y y)) 1) = some r ∧
    (r : ZMod p) = (coefficient * (y : ZMod p) ^ 2 + 1)⁻¹ := by
  rw [← cast_divisor]
  exact inverse?_of_ne_zero (by rw [cast_divisor]; exact divisor_ne_zero _)

/-- Euler's criterion. -/
theorem isSquare_cast_iff (hq : q < p) :
    IsSquare (q : ZMod p) ↔ (q == 0 || pow q ((p - 1) / 2) == 1) = true := by
  rw [Bool.or_eq_true, beq_iff_eq, beq_iff_eq]
  by_cases h0 : q = 0
  · rw [h0, Nat.cast_zero]
    exact iff_of_true .zero (.inl rfl)
  · have hne : (q : ZMod p) ≠ 0 := by
      rw [ne_eq, ← Nat.cast_zero, cast_inj hq prime_p.pos]
      exact h0
    have hhalf : p / 2 = (p - 1) / 2 := by decide
    rw [ZMod.euler_criterion p hne, or_iff_right h0, ← cast_inj (pow_lt _ _) prime_p.one_lt,
      cast_pow (by decide), Nat.cast_one, hhalf]

theorem hasAbscissa_iff (y : Nat) : hasAbscissa y = true ↔ ∃ x, OnCurve x (y : ZMod p) := by
  obtain ⟨r, hr, hcast⟩ := inverse?_divisor y
  have hquotient : (mul (sub (mul y y) 1) r : ZMod p) =
      ((y : ZMod p) ^ 2 - 1) / (coefficient * (y : ZMod p) ^ 2 + 1) := by
    rw [cast_mul, cast_sub, cast_mul, hcast, Nat.cast_one, sq, div_eq_mul_inv]
  rw [exists_onCurve_iff, ← hquotient, isSquare_cast_iff (mul_lt _ _)]
  unfold hasAbscissa
  simp only [hr]

end Criterion

section Ordinate

/-- The bytes without the sign of `x`, which is their top bit. -/
def unsigned (point : FixedBytes 32) : FixedBytes 32 where
  bytes := point.bytes.modify 31 (· &&& 0x7f)
  length_eq := by rw [List.length_modify, point.length_eq]

/-- The number that the bytes stand for, lowest byte first, without the sign. -/
def unsignedValue (point : FixedBytes 32) : Nat :=
  Bytes.toNatLE (unsigned point).bytes

theorem toNatLE_modify : ∀ (n : Nat) (bs : Bytes), bs.length = n + 1 →
    Bytes.toNatLE (bs.modify n (· &&& 0x7f)) = Bytes.toNatLE bs % (256 ^ n * 128)
  | 0, [b], _ => by
    simpa [Bytes.toNatLE] using Nat.and_two_pow_sub_one_eq_mod b.toNat 7
  | n + 1, b :: bs, h => by
    have ih := toNatLE_modify n bs (Nat.succ.inj h)
    have hb := b.toNat_lt
    have hlow : (b.toNat + 256 * Bytes.toNatLE bs) % 256 = b.toNat := by omega
    have hhigh : (b.toNat + 256 * Bytes.toNatLE bs) / 256 = Bytes.toNatLE bs := by omega
    rw [List.modify_succ_cons, Bytes.toNatLE, Bytes.toNatLE, ih, Nat.pow_succ', Nat.mul_assoc,
      Nat.mod_mul (a := 256), hlow, hhigh]

theorem ordinate_eq (point : FixedBytes 32) : ordinate point = unsignedValue point % p := by
  rw [unsignedValue, unsigned, toNatLE_modify 31 _ point.length_eq]
  rfl

theorem isPoint_congr {point other : FixedBytes 32}
    (h : unsignedValue other ≡ unsignedValue point [MOD p]) : isPoint other = isPoint point := by
  rw [isPoint, isPoint, ordinate_eq, ordinate_eq, h]

theorem isPoint_iff (point : FixedBytes 32) :
    isPoint point = true ↔ ∃ x, OnCurve x (unsignedValue point : ZMod p) := by
  rw [isPoint, hasAbscissa_iff, ordinate_eq, ZMod.natCast_mod]

end Ordinate

/-- The test says whether the bytes are those of a point, and depends on nothing but the ordinate.
-/
structure Decides (point : FixedBytes 32) : Prop where
  membership : isPoint point = true ↔ ∃ x, OnCurve x (unsignedValue point : ZMod p)
  divisor : coefficient * (unsignedValue point : ZMod p) ^ 2 + 1 ≠ 0
  reciprocal : ∃ r, inverse? (add (mul d (mul (ordinate point) (ordinate point))) 1) = some r ∧
    (r : ZMod p) * (coefficient * (unsignedValue point : ZMod p) ^ 2 + 1) = 1
  sign : ∀ other, unsigned other = unsigned point → isPoint other = isPoint point
  representative : ∀ other, unsignedValue other ≡ unsignedValue point [MOD p] →
    isPoint other = isPoint point

theorem decides_membership (point : FixedBytes 32) : Decides point where
  membership := isPoint_iff point
  divisor := divisor_ne_zero _
  reciprocal := by
    obtain ⟨r, hr, hcast⟩ := inverse?_divisor (ordinate point)
    refine ⟨r, hr, ?_⟩
    rw [ordinate_eq, ZMod.natCast_mod] at hcast
    rw [hcast, inv_mul_cancel₀ (divisor_ne_zero _)]
  sign other h := isPoint_congr (by rw [unsignedValue, h, unsignedValue])
  representative other h := isPoint_congr h

end OfflineTx.Curve
