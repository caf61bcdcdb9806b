import OfflineTx.Text.Base58

/-!
# Well-known programs

The programs and system accounts that have a name of their own, in a fixed order.
-/

namespace OfflineTx

inductive Program
  | system
  | token
  | token2022
  | associatedToken
  | memo
  | computeBudget
  | upgradeableLoader
  | clock
  | rent
  | recentBlockhashes
deriving DecidableEq

namespace Program

def all : List Program :=
  [system, token, token2022, associatedToken, memo, computeBudget, upgradeableLoader, clock, rent,
    recentBlockhashes]

def name : Program → Bytes
  | system => ascii "system"
  | token => ascii "token"
  | token2022 => ascii "token_2022"
  | associatedToken => ascii "associated_token"
  | memo => ascii "memo"
  | computeBudget => ascii "compute_budget"
  | upgradeableLoader => ascii "bpf_upgradeable_loader"
  | clock => ascii "sysvar_clock"
  | rent => ascii "sysvar_rent"
  | recentBlockhashes => ascii "sysvar_recent_blockhashes"

def addressText : Program → Bytes
  | system => ascii "11111111111111111111111111111111"
  | token => ascii "TokenkegQfeZyiNwAJbNbGKPFXCWuBvf9Ss623VQ5DA"
  | token2022 => ascii "TokenzQdBNbLqP5VEhdkAS6EPFLC1PHnBqCXEpPxuEb"
  | associatedToken => ascii "ATokenGPvbdGVxr1b2hvZbsiqW5xWH25efTNsLJA8knL"
  | memo => ascii "MemoSq4gqABAXKb96qnH8TysNcWxMyWCqXgDLGmfcHr"
  | computeBudget => ascii "ComputeBudget111111111111111111111111111111"
  | upgradeableLoader => ascii "BPFLoaderUpgradeab1e11111111111111111111111"
  | clock => ascii "SysvarC1ock11111111111111111111111111111111"
  | rent => ascii "SysvarRent111111111111111111111111111111111"
  | recentBlockhashes => ascii "SysvarRecentB1ockHashes11111111111111111111"

def address (program : Program) : Address :=
  (FixedBytes.ofBase58? 32 program.addressText).getD (.zero 32)

def ofName? (name : Bytes) : Option Program :=
  all.find? fun program => Bytes.agree name program.name

end Program

end OfflineTx
