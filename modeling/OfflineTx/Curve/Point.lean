import OfflineTx.Curve.Membership

/-!
# Points of the curve

A point is kept as `x = X / Z`, `y = Y / Z` and `x * y = T / Z`, so that sums need no division.
-/

namespace OfflineTx.Curve

structure Point where
  x : Nat
  y : Nat
  z : Nat
  t : Nat
deriving DecidableEq

namespace Point

def identity : Point where
  x := 0
  y := 1
  z := 1
  t := 0

def ofAffine (x y : Nat) : Point where
  x := x
  y := y
  z := 1
  t := Curve.mul x y

/-- The sum, by formulas that hold for all pairs of points. -/
def add (a b : Point) : Point :=
  let u := mul (sub a.y a.x) (sub b.y b.x)
  let v := mul (Curve.add a.y a.x) (Curve.add b.y b.x)
  let w := mul (mul (2 * d) a.t) b.t
  let s := mul (2 * a.z) b.z
  let e := sub v u
  let f := sub s w
  let g := Curve.add s w
  let h := Curve.add v u
  { x := mul e f, y := mul g h, z := mul f g, t := mul e h }

def neg (a : Point) : Point :=
  { a with x := sub 0 a.x, t := sub 0 a.t }

/-- The multiple by the number made of the `n` lowest bits of `k`. -/
def smulBits (a : Point) : Nat → Nat → Point
  | 0, _ => identity
  | n + 1, k =>
    let half := smulBits a n (k / 2)
    let double := half.add half
    if k % 2 = 1 then double.add a else double

def smul (k : Nat) (a : Point) : Point :=
  smulBits a 256 k

/-- The `x` of the point with ordinate `y` whose lowest bit is `odd`, if there is a point. An `x`
of zero counts for either bit. -/
def abscissa? (y : Nat) (odd : Bool) : Option Nat :=
  let square := mul y y
  let u := sub square 1
  let v := Curve.add (mul d square) 1
  let v3 := mul v (mul v v)
  let candidate := mul (mul u v3) (pow (mul u (mul v3 (mul v3 v))) ((p - 5) / 8))
  let check := mul v (mul candidate candidate)
  let root :=
    if check = u then some candidate
    else if check = sub 0 u then some (mul candidate rootOfMinusOne)
    else none
  root.map fun x => if (x % 2 == 1) == odd then x else sub 0 x

/-- The point of a compressed form. The ordinate is taken modulo `p`. -/
def decompress? (bs : FixedBytes 32) : Option Point :=
  let y := ordinate bs
  (abscissa? y (Bytes.toNatLE bs.bytes / Nat.pow 2 255 % 2 == 1)).map (ofAffine · y)

/-- The ordinate, lowest byte first, with the lowest bit of `x` in the top bit. -/
def compress (a : Point) : FixedBytes 32 :=
  let r := pow a.z (p - 2)
  let x := mul a.x r
  let y := mul a.y r
  ⟨Bytes.ofNatLE 32 (y + x % 2 * Nat.pow 2 255), Bytes.length_ofNatLE ..⟩

/-- The point with `y = 4 / 5` and an even `x`. -/
def base : Point :=
  let y := mul 4 (pow 5 (p - 2))
  ofAffine ((abscissa? y false).getD 0) y

end Point

end OfflineTx.Curve
