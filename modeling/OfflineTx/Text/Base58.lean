import OfflineTx.Bytes.Fixed
import OfflineTx.Text.Radix

/-!
# Base-58 text

A byte string is written as one `1` for each leading zero byte, followed by the base-58 digits of
the rest read as one number, highest digit first and without leading zeros. The digits are found
in a number of places fixed beforehand from the length, and the result has to fit a given room.
-/

namespace OfflineTx.Base58

def alphabet : Bytes :=
  ascii "123456789ABCDEFGHJKLMNPQRSTUVWXYZabcdefghijkmnopqrstuvwxyz"

def digit (v : Nat) : UInt8 :=
  alphabet.getD v 49

def digitValue? (c : UInt8) : Option Nat :=
  alphabet.findIdx? (· == c)

/-- Places for the base-58 digits of `n` bytes: `log 256 / log 58`, rounded up. -/
def textPlaces (n : Nat) : Nat :=
  n * 138 / 100 + 1

/-- Places for the bytes of `n` base-58 digits: `log 58 / log 256`, rounded up. -/
def bytePlaces (n : Nat) : Nat :=
  n * 733 / 1000 + 1

/-- The text of a byte string that is not empty, if the text and one more byte fit `room`. -/
def encode? (room : Int) (bs : Bytes) : Option Bytes :=
  if bs.isEmpty then none
  else
    let zeros := (bs.takeWhile (· == 0)).length
    let rest := bs.drop zeros
    match Radix.digits? 58 (textPlaces rest.length) (Bytes.toNatBE rest) with
    | none => none
    | some ds =>
      let text := List.replicate zeros 49 ++ ds.map digit
      if (text.length : Int) + 1 > room then none else some text

/-- The bytes of a text over the alphabet, if they fit `room`. -/
def decode? (room : Int) (text : Bytes) : Option Bytes :=
  let zeros := (text.takeWhile (· == 49)).length
  let rest := text.drop zeros
  match rest.mapM digitValue? with
  | none => none
  | some ds =>
    match Radix.digits? 256 (bytePlaces rest.length) (Radix.value 58 ds) with
    | none => none
    | some vs =>
      let bs := List.replicate zeros 0 ++ vs.map Nat.toUInt8
      if (bs.length : Int) > room then none else some bs

end OfflineTx.Base58

namespace OfflineTx.FixedBytes

variable {n : Nat}

/-- The base-58 text of an address, a hash or a signature. -/
def toBase58 (a : FixedBytes n) : Bytes :=
  (Base58.encode? (2 * n) a.bytes).getD []

/-- The bytes of a base-58 text that stands for exactly `n` of them. -/
def ofBase58? (n : Nat) (text : Bytes) : Option (FixedBytes n) :=
  (Base58.decode? n text).bind (ofBytes? n)

end OfflineTx.FixedBytes
