/-!
# Limits

What the network accepts: the size of a transaction, the accounts and signers of a message, and
the seeds of a derivation.
-/

namespace OfflineTx

/-- Most bytes of a transaction on the wire. -/
def maxPacket : Nat := 1232

/-- Most accounts of a message, so that one byte numbers them. -/
def maxAccounts : Nat := 256

/-- Most signers of a message, so that one byte counts them. -/
def maxSigners : Nat := 255

/-- Most seeds of a derivation. -/
def maxSeeds : Nat := 16

/-- Most bytes of a seed. -/
def maxSeedLength : Nat := 32

end OfflineTx
