import Mathlib.FieldTheory.Finite.Basic
import OfflineTx.Proofs.Primality

/-!
# The field of the curve

Numbers stand for their residues modulo the prime `p`. The operations on numbers are those of the
field (`cast_add`, `cast_sub`, `cast_mul`, `cast_pow`), a number has a reciprocal unless it stands
for zero (`inverse?_of_ne_zero`), and numbers below `p` stand for different residues (`cast_inj`).
-/

namespace OfflineTx.Curve

variable {a b e : Nat}

theorem cast_add (a b : Nat) : (add a b : ZMod p) = a + b := by
  rw [add, ZMod.natCast_mod, Nat.cast_add]

theorem cast_sub (a b : Nat) : (sub a b : ZMod p) = a - b := by
  have hle : b % p ≤ p := Nat.le_of_lt (Nat.mod_lt b prime_p.pos)
  rw [sub, ZMod.natCast_mod, Nat.cast_add, Nat.cast_sub hle, ZMod.natCast_self, ZMod.natCast_mod,
    zero_sub, sub_eq_add_neg]

theorem cast_mul (a b : Nat) : (mul a b : ZMod p) = a * b := by
  rw [mul, ZMod.natCast_mod, Nat.cast_mul]

theorem powBits_eq (a : Nat) : ∀ k e : Nat, powBits a k e = powMod p a k e
  | 0, _ => rfl
  | k + 1, e => by rw [powBits, powMod, powBits_eq a k]; rfl

theorem cast_pow (he : e < 2 ^ 256) : (pow a e : ZMod p) = (a : ZMod p) ^ e := by
  rw [pow, powBits_eq, cast_powMod p a he]

theorem mul_lt (a b : Nat) : mul a b < p :=
  Nat.mod_lt _ prime_p.pos

theorem pow_lt (a e : Nat) : pow a e < p := by
  rw [pow, powBits]
  split
  · exact mul_lt _ _
  · exact mul_lt _ _

theorem cast_inj (ha : a < p) (hb : b < p) : (a : ZMod p) = b ↔ a = b := by
  rw [ZMod.natCast_eq_natCast_iff', Nat.mod_eq_of_lt ha, Nat.mod_eq_of_lt hb]

theorem cast_eq_zero_iff : (a : ZMod p) = 0 ↔ a % p = 0 := by
  rw [ZMod.natCast_eq_zero_iff, Nat.dvd_iff_mod_eq_zero]

/-- The little theorem of Fermat. Zero is its own reciprocal in the field. -/
theorem cast_pow_sub_two (a : Nat) : (pow a (p - 2) : ZMod p) = (a : ZMod p)⁻¹ := by
  rw [cast_pow (by decide)]
  by_cases ha : (a : ZMod p) = 0
  · rw [ha, inv_zero, zero_pow (by decide)]
  · apply eq_inv_of_mul_eq_one_left
    rw [← pow_succ, show p - 2 + 1 = p - 1 by decide, ZMod.pow_card_sub_one_eq_one ha]

theorem inverse?_of_ne_zero (ha : (a : ZMod p) ≠ 0) :
    ∃ r, inverse? a = some r ∧ (r : ZMod p) = (a : ZMod p)⁻¹ :=
  ⟨_, if_neg (mt cast_eq_zero_iff.2 ha), cast_pow_sub_two a⟩

theorem cast_d : (d : ZMod p) = -121665 / 121666 := by
  rw [d, cast_sub, cast_mul, cast_pow_sub_two]
  push_cast
  rw [zero_sub, neg_div, div_eq_mul_inv]

end OfflineTx.Curve
