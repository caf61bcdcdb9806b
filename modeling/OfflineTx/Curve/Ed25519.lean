import OfflineTx.Curve.Point
import OfflineTx.Digest.Sha512

/-!
# Signatures

A signature is a compressed point `R` and a scalar `s`. It belongs to a message and a public key
`A` when `s` is below the order of the group and `R` is `s * B - h * A`, where `h` is the digest
of `R`, `A` and the message.
-/

namespace OfflineTx.Ed25519

open Curve

/-- The scalar of a secret: its digest's first half with the three lowest bits and the highest bit
cleared, and the bit below the highest set. -/
def scalar (secret : FixedBytes 32) : Nat :=
  let low := Bytes.toNatLE ((Sha512.digest secret.bytes).bytes.take 32)
  low % Nat.pow 2 254 / 8 * 8 + Nat.pow 2 254

def publicKey (secret : FixedBytes 32) : FixedBytes 32 :=
  (Point.base.smul (scalar secret)).compress

/-- A digest as a scalar, lowest byte first. -/
def challenge (parts : List Bytes) : Nat :=
  Bytes.toNatLE (Sha512.digest parts.flatten).bytes % order

theorem length_append_halves (a b : Bytes) (ha : a.length = 32) (hb : b.length = 32) :
    (a ++ b).length = 64 := by
  rw [List.length_append, ha, hb]

def sign (secret : FixedBytes 32) (message : Bytes) : Signature :=
  let nonceKey := (Sha512.digest secret.bytes).bytes.drop 32
  let nonce := challenge [nonceKey, message]
  let point := (Point.base.smul nonce).compress
  let h := challenge [point.bytes, (publicKey secret).bytes, message]
  let s := Bytes.ofNatLE 32 ((nonce + h * scalar secret) % order)
  ⟨point.bytes ++ s, length_append_halves _ _ point.length_eq (Bytes.length_ofNatLE ..)⟩

def verify (signature : Signature) (message : Bytes) (key : FixedBytes 32) : Bool :=
  let r := signature.bytes.take 32
  let s := Bytes.toNatLE (signature.bytes.drop 32)
  if s < order then
    match Point.decompress? key with
    | none => false
    | some a =>
      let h := challenge [r, key.bytes, message]
      ((Point.base.smul s).add (a.neg.smul h)).compress.bytes == r
  else false

end OfflineTx.Ed25519
