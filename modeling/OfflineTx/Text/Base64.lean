import OfflineTx.Bytes

/-!
# Base-64 text

Three bytes are four characters of six bits each, high bits first. A last group of one or two
bytes is filled up with `=`. Reading takes any number of `=` after the characters, also none, and
ignores bits that do not fill a byte.
-/

namespace OfflineTx.Base64

def alphabet : Bytes :=
  ascii "ABCDEFGHIJKLMNOPQRSTUVWXYZabcdefghijklmnopqrstuvwxyz0123456789+/"

def digit (v : Nat) : UInt8 :=
  alphabet.getD (v % 64) 61

def digitValue? (c : UInt8) : Option Nat :=
  alphabet.findIdx? (· == c)

/-- The length of the text of `n` bytes. -/
def textLength (n : Nat) : Nat :=
  (n + 2) / 3 * 4

/-- Writes the groups of `bs` after the characters in `text`, which stand last first. -/
def encodeOnto : Bytes → Bytes → Bytes
  | [], text => text
  | [a], text => 61 :: 61 :: digit (a.toNat * 16) :: digit (a.toNat / 4) :: text
  | [a, b], text =>
    61 :: digit (b.toNat * 4) :: digit (a.toNat * 16 + b.toNat / 16) :: digit (a.toNat / 4) :: text
  | a :: b :: c :: bs, text =>
    encodeOnto bs (digit c.toNat :: digit (b.toNat * 4 + c.toNat / 64) ::
      digit (a.toNat * 16 + b.toNat / 16) :: digit (a.toNat / 4) :: text)

def encode (bs : Bytes) : Bytes :=
  (encodeOnto bs []).reverse

/-- Writes the bytes of a body of six-bit values after `bs`, which stands last first. One value
left alone holds less than a byte. -/
def decodeOnto : List Nat → Bytes → Option Bytes
  | [], bs => some bs
  | [_], _ => none
  | [u, v], bs => some ((u * 4 + v / 16).toUInt8 :: bs)
  | [u, v, w], bs => some ((v * 16 + w / 4).toUInt8 :: (u * 4 + v / 16).toUInt8 :: bs)
  | u :: v :: w :: x :: vs, bs =>
    decodeOnto vs ((w * 64 + x).toUInt8 :: (v * 16 + w / 4).toUInt8 ::
      (u * 4 + v / 16).toUInt8 :: bs)

/-- The body is what stands before the first `=`, and only `=` may follow it. -/
def decode? (text : Bytes) : Option Bytes :=
  let body := text.takeWhile (· != 61)
  let padding := text.dropWhile (· != 61)
  match body.mapM digitValue? with
  | none => none
  | some vs =>
    if padding.all (· == 61) then (decodeOnto vs []).map List.reverse else none

end OfflineTx.Base64
