import OfflineTx.Bytes.Fixed
import OfflineTx.Curve.Field

/-!
# Which strings are points of the curve

A compressed point is its `y`, lowest byte first, with the sign of `x` in the top bit. The string
is a point when `(y ^ 2 - 1) / (d * y ^ 2 + 1)` is a square, which Euler's criterion decides.
-/

namespace OfflineTx.Curve

/-- The value of the bytes without their top bit. -/
def ordinate (point : FixedBytes 32) : Nat :=
  Bytes.toNatLE point.bytes % Nat.pow 2 255 % p

/-- Whether the value of `x ^ 2` that belongs to `y` is a square. -/
def hasAbscissa (y : Nat) : Bool :=
  let square := mul y y
  match inverse? (add (mul d square) 1) with
  | none => true
  | some r =>
    let quotient := mul (sub square 1) r
    quotient == 0 || pow quotient ((p - 1) / 2) == 1

def isPoint (point : FixedBytes 32) : Bool :=
  hasAbscissa (ordinate point)

end OfflineTx.Curve
