/-!
# The field of the curve

Numbers modulo the prime `2 ^ 255 - 19`, and the constants of the curve
`-x ^ 2 + y ^ 2 = 1 + d * x ^ 2 * y ^ 2` over them.
-/

namespace OfflineTx.Curve

def p : Nat := Nat.pow 2 255 - 19

/-- The number of points in the group that the base point generates. -/
def order : Nat := Nat.pow 2 252 + 27742317777372353535851937790883648493

def add (a b : Nat) : Nat := (a + b) % p

def sub (a b : Nat) : Nat := (a + (p - b % p)) % p

def mul (a b : Nat) : Nat := a * b % p

/-- `a` to the power of the number made of the `k` lowest bits of `e`. -/
def powBits (a : Nat) : Nat → Nat → Nat
  | 0, _ => 1
  | k + 1, e =>
    let half := powBits a k (e / 2)
    let square := mul half half
    if e % 2 = 1 then mul square a else square

def pow (a e : Nat) : Nat := powBits a 256 e

/-- The reciprocal by the little theorem of Fermat. Zero has none. -/
def inverse? (a : Nat) : Option Nat :=
  if a % p = 0 then none else some (pow a (p - 2))

/-- The constant of the curve, `-121665 / 121666`. -/
def d : Nat := sub 0 (mul 121665 (pow 121666 (p - 2)))

/-- A square root of `-1`. -/
def rootOfMinusOne : Nat := pow 2 ((p - 1) / 4)

end OfflineTx.Curve
