import OfflineTx.Text.Base58
import OfflineTx.Text.Decimal
import OfflineTx.Text.Hex
import OfflineTx.Transaction.Basic

/-!
# Listings

A transaction as lines of text, for people to read.
-/

namespace OfflineTx

namespace Listing

/-- Lines numbered from zero on, indented by two blanks. -/
def numbered (items : List Bytes) : Bytes :=
  (items.zipIdx).flatMap fun (item, i) =>
    ascii "  " ++ Decimal.ofNat i ++ ascii ": " ++ item ++ ascii "\n"

/-- A title, the number of items, and the items. -/
def titled (title : String) (items : List Bytes) : Bytes :=
  ascii title ++ ascii ": " ++ Decimal.ofNat items.length ++ ascii "\n" ++ numbered items

def indices (bs : Bytes) : Bytes :=
  ascii "[" ++ [(44 : UInt8)].intercalate (bs.map fun b => Decimal.ofNat b.toNat) ++ ascii "]"

def version : Version → Bytes
  | .legacy => ascii "legacy"
  | .v0 => ascii "v0"

def header (h : Header) : Bytes :=
  ascii "header: required_sigs=" ++ Decimal.ofNat h.required.toNat ++
    ascii " readonly_signed=" ++ Decimal.ofNat h.readonlySigned.toNat ++
    ascii " readonly_unsigned=" ++ Decimal.ofNat h.readonlyUnsigned.toNat ++ ascii "\n"

def account (g : Message.Groups) (a : Address) (i : Nat) : Bytes :=
  let index := UInt64.ofNat i
  a.toBase58 ++ (if g.isSigner index then ascii " signer" else []) ++
    (if g.isWritable index then ascii " writable" else ascii " readonly")

def instruction (ix : CompiledInstruction) : Bytes :=
  ascii "program=" ++ Decimal.ofNat ix.program.toNat ++ ascii " accounts=" ++ indices ix.accounts ++
    ascii " data_len=" ++ Decimal.ofNat ix.data.length ++ ascii " data=" ++ Hex.encode ix.data

def lookup (l : Lookup) : Bytes :=
  l.table.toBase58 ++ ascii " writable=" ++ indices l.writable ++ ascii " readonly=" ++
    indices l.readonly

end Listing

namespace Transaction

/-- All that is in a transaction. Lookups show only if there are any. -/
def inspect (t : Transaction) : Bytes :=
  let m := t.message
  let g := m.groups
  ascii "version: " ++ Listing.version m.version ++ ascii "\n" ++
    Listing.titled "signatures" (t.signatures.map FixedBytes.toBase58) ++
    Listing.header m.header ++
    Listing.titled "accounts" (m.keys.zipIdx.map fun (a, i) => Listing.account g a i) ++
    ascii "recent_hash: " ++ m.recentHash.toBase58 ++ ascii "\n" ++
    Listing.titled "instructions" (m.instructions.map Listing.instruction) ++
    if m.lookups.isEmpty then [] else Listing.titled "lookups" (m.lookups.map Listing.lookup)

/-- One line of counts, with the given size. -/
def summary (t : Transaction) (size : Nat) : Bytes :=
  ascii "transaction: " ++ Decimal.ofNat t.signatures.length ++ ascii " signatures, " ++
    Decimal.ofNat t.message.keys.length ++ ascii " accounts, " ++
    Decimal.ofNat t.message.instructions.length ++ ascii " instructions, size=" ++
    Decimal.ofNat size ++ ascii " bytes"

end Transaction

end OfflineTx
