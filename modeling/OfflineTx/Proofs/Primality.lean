import Mathlib.Data.List.Prime
import Mathlib.NumberTheory.LucasPrimality
import Mathlib.Tactic.NormNum.Prime
import OfflineTx.Curve.Field

/-!
# The modulus is prime

A number is prime if some number has as many different powers modulo it as a prime has residues
other than zero, which its powers for the factors of the number less one decide
(`prime_of_generates`). These factors are prime in turn for the same reason, down to ones that are
small enough to divide out, so a list in which the factors of each number come before it holds
primes only (`prime_of_certified`), and the modulus ends one (`prime_p`).
-/

namespace OfflineTx.Curve

/-- `a` to the power of the number made of the `k` lowest bits of `e`, modulo `m`. -/
def powMod (m a : Nat) : Nat → Nat → Nat
  | 0, _ => 1 % m
  | k + 1, e =>
    let half := powMod m a k (e / 2)
    let square := half * half % m
    if e % 2 = 1 then square * a % m else square

theorem cast_powMod (m a : Nat) : ∀ {k e : Nat}, e < 2 ^ k →
    (powMod m a k e : ZMod m) = (a : ZMod m) ^ e
  | 0, e, h => by
    have he : e = 0 := by simpa using h
    rw [he, powMod, ZMod.natCast_mod, Nat.cast_one, pow_zero]
  | k + 1, e, h => by
    have hq : e / 2 < 2 ^ k := by
      rw [Nat.pow_succ] at h
      omega
    have ih := cast_powMod m a hq
    have he := Nat.div_add_mod e 2
    simp only [powMod]
    split
    · rename_i hodd
      rw [ZMod.natCast_mod, Nat.cast_mul, ZMod.natCast_mod, Nat.cast_mul, ih, ← pow_add,
        ← pow_succ]
      congr 1
      omega
    · rw [ZMod.natCast_mod, Nat.cast_mul, ih, ← pow_add]
      congr 1
      omega

theorem pow_eq_one_iff {m a k e : Nat} (hm : 1 < m) (he : e < 2 ^ k) :
    (a : ZMod m) ^ e = 1 ↔ powMod m a k e % m = 1 := by
  rw [← cast_powMod m a he, ← Nat.cast_one, ZMod.natCast_eq_natCast_iff', Nat.mod_eq_of_lt hm]

/-- The power of `a` modulo `n` is one for the exponent `n - 1`, and for no quotient of it by one of
its factors. -/
def Generates (n a : Nat) (factors : List Nat) : Prop :=
  1 < n ∧ n < 2 ^ 256 ∧ factors.prod = n - 1 ∧ powMod n a 256 (n - 1) % n = 1 ∧
    ∀ q ∈ factors, powMod n a 256 ((n - 1) / q) % n ≠ 1

instance (n a : Nat) (factors : List Nat) : Decidable (Generates n a factors) :=
  inferInstanceAs (Decidable (_ ∧ _))

theorem prime_of_generates {n : Nat} (a : Nat) (factors : List Nat)
    (hprime : ∀ q ∈ factors, q.Prime) (h : Generates n a factors) : n.Prime := by
  obtain ⟨hn, hlt, hprod, hone, hne⟩ := h
  refine lucas_primality n a ((pow_eq_one_iff hn (by omega)).2 hone) fun q hq hdvd => ?_
  rw [← hprod] at hdvd
  obtain ⟨r, hr, hqr⟩ := (Prime.dvd_prod_iff hq.prime).1 hdvd
  obtain rfl := (Nat.prime_dvd_prime_iff_eq hq (hprime r hr)).1 hqr
  have hle := Nat.div_le_self (n - 1) q
  exact mt (pow_eq_one_iff hn (by omega)).1 (hne q hr)

/-- A number, a residue whose powers modulo the number are compared with one, and the factors of the
number less one. -/
structure Certificate where
  number : Nat
  residue : Nat
  factors : List Nat

/-- Each number has a residue that generates, and its factors are known or are numbers before it. -/
def Certified : List Nat → List Certificate → Prop
  | _, [] => True
  | known, c :: rest =>
    (∀ q ∈ c.factors, q ∈ known) ∧ Generates c.number c.residue c.factors ∧
      Certified (c.number :: known) rest

instance decidableCertified : ∀ known chain, Decidable (Certified known chain)
  | _, [] => inferInstanceAs (Decidable True)
  | known, c :: rest =>
    have := decidableCertified (c.number :: known) rest
    inferInstanceAs (Decidable (_ ∧ _ ∧ Certified (c.number :: known) rest))

theorem prime_of_certified : ∀ {known : List Nat} {chain : List Certificate},
    (∀ q ∈ known, q.Prime) → Certified known chain → ∀ c ∈ chain, c.number.Prime
  | _, [], _, _ => by simp
  | known, c :: rest, hknown, ⟨hfactors, hgenerates, hrest⟩ => by
    have hc : c.number.Prime :=
      prime_of_generates c.residue c.factors (fun q hq => hknown q (hfactors q hq)) hgenerates
    exact List.forall_mem_cons.2
      ⟨hc, prime_of_certified (List.forall_mem_cons.2 ⟨hc, hknown⟩) hrest⟩

/-- Primes that are small enough to divide out. -/
def smallPrimes : List Nat :=
  [2, 3, 5, 7, 13, 19, 31, 47, 103, 107, 127, 223, 353, 991, 2437, 4153, 57467, 65147, 75707,
    132049, 430751, 569003, 1923133]

theorem prime_of_mem_smallPrimes : ∀ q ∈ smallPrimes, q.Prime := by
  simp only [smallPrimes, List.forall_mem_cons]
  norm_num

/-- The modulus, after the primes that its factors are certified by. -/
def certificates : List Certificate :=
  [⟨2773320623, 5, [2, 2437, 569003]⟩,
    ⟨72106336199, 7, [2, 13, 2773320623]⟩,
    ⟨8574133, 2, [2, 2, 3, 7, 103, 991]⟩,
    ⟨1919519569386763, 2, [2, 3, 7, 19, 47, 47, 127, 8574133]⟩,
    ⟨31757755568855353, 10, [2, 2, 2, 3, 31, 107, 223, 4153, 430751]⟩,
    ⟨75445702479781427272750846543864801, 7,
      [2, 2, 2, 2, 2, 3, 3, 5, 5, 75707, 72106336199, 1919519569386763]⟩,
    ⟨74058212732561358302231226437062788676166966415465897661863160754340907, 2,
      [2, 3, 353, 57467, 132049, 1923133, 31757755568855353,
        75445702479781427272750846543864801]⟩,
    ⟨p, 2,
      [2, 2, 3, 65147,
        74058212732561358302231226437062788676166966415465897661863160754340907]⟩]

theorem certified_certificates : Certified smallPrimes certificates := by
  decide +kernel

theorem prime_p : Nat.Prime p :=
  prime_of_certified prime_of_mem_smallPrimes certified_certificates _
    (List.getLast_mem (List.cons_ne_nil _ _))

instance : Fact p.Prime := ⟨prime_p⟩

end OfflineTx.Curve
