/-!
# Digits in a given number of places

`split b k n` writes `n` into `k` places of base `b`, highest place first, and gives what is left
over above the highest place. Digits and remainder together are the number.
-/

namespace OfflineTx.Radix

/-- Puts the `k` lowest digits of `n` in front of the digits above, highest first. -/
def splitOnto (b : Nat) : Nat → Nat → List Nat → Nat × List Nat
  | 0, n, ds => (n, ds)
  | k + 1, n, ds => splitOnto b k (n / b) (n % b :: ds)

/-- What is left of `n` above `k` places of base `b`, and the digits in these places. -/
def split (b k n : Nat) : Nat × List Nat :=
  splitOnto b k n []

/-- The number with the given digits, highest first. -/
def value (b : Nat) (ds : List Nat) : Nat :=
  ds.foldl (fun n d => b * n + d) 0

/-- The digits of `n` in `k` places without leading zeros, if `n` needs no more places. -/
def digits? (b k n : Nat) : Option (List Nat) :=
  match split b k n with
  | (0, ds) => some (ds.dropWhile (· == 0))
  | _ => none

end OfflineTx.Radix
