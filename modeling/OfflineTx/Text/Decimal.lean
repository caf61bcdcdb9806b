import OfflineTx.Bytes

/-!
# Decimal text

Numbers are written in decimal digits without leading zeros, or in a fixed number of digits.
A text of digits is read modulo `2 ^ 64`.
-/

namespace OfflineTx.Decimal

def ofNat (n : Nat) : Bytes :=
  (Nat.toDigits 10 n).map fun c => c.toNat.toUInt8

def ofInt : Int → Bytes
  | .ofNat n => ofNat n
  | .negSucc n => 45 :: ofNat (n + 1)

def isDigit (b : UInt8) : Bool :=
  48 ≤ b && b ≤ 57

/-- The value of a text of digits modulo `2 ^ 64`. A text with anything else in it counts as
zero, and so does the empty one. -/
def read (bs : Bytes) : UInt64 :=
  if bs.all isDigit then bs.foldl (fun v b => v * 10 + (b - 48).toUInt64) 0 else 0

/-- The `k` lowest decimal digits of `v`. Division goes toward zero, so a negative number shows
its digits as characters below `0`. -/
def fixedWidth : Nat → Int → Bytes
  | 0, _ => []
  | k + 1, v => fixedWidth k (v.tdiv 10) ++ [(48 + v.tmod 10).toNat.toUInt8]

@[simp] theorem length_fixedWidth : ∀ (k : Nat) (v : Int), (fixedWidth k v).length = k
  | 0, _ => rfl
  | k + 1, v => by simp [fixedWidth, length_fixedWidth k]

end OfflineTx.Decimal
