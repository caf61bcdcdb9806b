import OfflineTx.Key.Pair
import OfflineTx.Text.Decimal

/-!
# Key files

A key file holds the 64 bytes of a key pair as decimal numbers between square brackets, as in
`[1,255,171]`. White space may stand around the numbers and before the first bracket, and anything
may follow the last.
-/

namespace OfflineTx.KeyFile

/-- White space: space, tab, line feed, vertical tab, form feed and carriage return. -/
def isBlank (b : UInt8) : Bool :=
  b == 32 || 9 ≤ b && b ≤ 13

def skipBlanks (text : Bytes) : Bytes :=
  text.dropWhile isBlank

/-- A number of one to three digits and of one byte, white space around it, and what follows. -/
def item? (text : Bytes) : Option (UInt8 × Bytes) :=
  let text := skipBlanks text
  let digits := text.takeWhile Decimal.isDigit
  let value := Decimal.read digits
  if digits.isEmpty || digits.length > 3 || value > 255 then none
  else some (value.toUInt8, skipBlanks (text.drop digits.length))

/-- The values of `n` items with a comma between any two, up to the closing bracket. -/
def items? : Nat → Bytes → Option Bytes
  | 0, _ => none
  | n + 1, text =>
    match item? text with
    | some (value, 93 :: _) => if n = 0 then some [value] else none
    | some (value, 44 :: text) => (items? n text).map (value :: ·)
    | _ => none

def parse? (text : Bytes) : Option KeyPair :=
  match skipBlanks text with
  | 91 :: text => do
    let values ← items? 64 text
    let bs ← FixedBytes.ofBytes? 64 values
    pure (.ofFixed bs)
  | _ => none

def render (k : KeyPair) : Bytes :=
  91 :: [(44 : UInt8)].intercalate (k.bytes.map fun b => Decimal.ofNat b.toNat) ++ [93]

end OfflineTx.KeyFile
