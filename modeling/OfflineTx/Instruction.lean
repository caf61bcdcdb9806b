import OfflineTx.Wire.Writer

/-!
# Instructions

An instruction calls a program with a list of accounts and some data. Each account is passed with
the permissions that the program asks for.
-/

namespace OfflineTx

structure AccountMeta where
  address : Address
  signer : Bool
  writable : Bool
deriving DecidableEq

structure Instruction where
  program : Address
  accounts : List AccountMeta := []
  data : Bytes := []
deriving DecidableEq

namespace Instruction

def addAccount (ix : Instruction) (account : AccountMeta) : Instruction :=
  { ix with accounts := ix.accounts ++ [account] }

def addAccounts (ix : Instruction) (accounts : List AccountMeta) : Instruction :=
  { ix with accounts := ix.accounts ++ accounts }

def addData (ix : Instruction) (data : Bytes) : Instruction :=
  { ix with data := ix.data ++ data }

def addWritten (ix : Instruction) (w : Wire.Writer) : Instruction :=
  ix.addData w.written

/-- The accounts an instruction refers to, in order: those passed, then the program itself, which
neither signs nor is written. -/
def references (ix : Instruction) : List AccountMeta :=
  ix.accounts ++ [{ address := ix.program, signer := false, writable := false }]

end Instruction

end OfflineTx
