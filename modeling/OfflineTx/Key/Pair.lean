import OfflineTx.Curve.Ed25519

/-!
# Key pairs and signers

A key pair is a secret and the address stored with it. Signing uses the secret alone, and the
address says for whom the signature is meant.
-/

namespace OfflineTx

structure KeyPair where
  secret : FixedBytes 32
  address : Address
deriving DecidableEq

namespace KeyPair

def bytes (k : KeyPair) : Bytes :=
  k.secret.bytes ++ k.address.bytes

@[simp] theorem length_bytes (k : KeyPair) : k.bytes.length = 64 := by
  simp [bytes]

/-- The pair whose halves are the first 32 bytes and the 32 bytes after them. -/
def ofFixed (bs : FixedBytes 64) : KeyPair where
  secret := ⟨bs.bytes.take 32, by simp⟩
  address := ⟨bs.bytes.drop 32, by simp⟩

theorem bytes_ofFixed (bs : FixedBytes 64) : (ofFixed bs).bytes = bs.bytes :=
  List.take_append_drop 32 bs.bytes

/-- The pair of a secret and the address derived from it. -/
def ofSecret (secret : FixedBytes 32) : KeyPair where
  secret := secret
  address := Ed25519.publicKey secret

end KeyPair

/-- Whoever can sign for an address. Signing a message may fail. -/
structure Signer where
  address : Address
  sign : Bytes → Option Signature

def KeyPair.signer (k : KeyPair) : Signer where
  address := k.address
  sign message := some (Ed25519.sign k.secret message)

end OfflineTx
