import OfflineTx.AddressMap
import OfflineTx.Message.Size

/-!
# Compiling messages

A message is compiled from a fee payer, a recent block hash and instructions. The accounts are
collected in the order in which they are first seen, the fee payer first, and each gets every
permission that some reference asks for. Then the table is laid out by permission.
-/

namespace OfflineTx

/-- An account that was seen: what is asked of it, and its index in the table once that is laid
out. -/
structure SeenAccount extends AccountMeta where
  index : UInt8 := 0
deriving DecidableEq

/-- The accounts seen so far, and where each address stands among them. -/
structure Compiler where
  positions : AddressMap 521
  seen : Array SeenAccount

namespace Compiler

def empty : Compiler where
  positions := .empty
  seen := #[]

instance : Inhabited Compiler := ⟨empty⟩

def clear (c : Compiler) : Compiler where
  positions := c.positions.clear
  seen := #[]

/-- The account with the permissions of one more reference. -/
def merge (a : AccountMeta) (old : SeenAccount) : SeenAccount :=
  { old with signer := old.signer || a.signer, writable := old.writable || a.writable }

def refer (c : Compiler) (a : AccountMeta) : Compiler :=
  match c.positions.lookup? a.address with
  | some i => { c with seen := c.seen.modify i (merge a) }
  | none =>
    { positions := c.positions.insert a.address c.seen.size, seen := c.seen.push { a with } }

/-- Collects the fee payer and the accounts of all instructions. -/
def collect (c : Compiler) (feePayer : Address) (ixs : List Instruction) : Compiler :=
  let start := c.clear.refer { address := feePayer, signer := true, writable := true }
  ixs.foldl (fun c ix => ix.references.foldl refer c) start

/-- The accounts other than the fee payer. -/
def others (c : Compiler) : List SeenAccount :=
  c.seen.toList.drop 1

def group (c : Compiler) (signer writable : Bool) : List SeenAccount :=
  c.others.filter fun a => a.signer == signer && a.writable == writable

/-- The other accounts in the order of the table. -/
def groups (c : Compiler) : List SeenAccount :=
  c.group true true ++ c.group true false ++ c.group false true ++ c.group false false

def signerCount (c : Compiler) : Nat :=
  1 + (c.group true true).length + (c.group true false).length

def header (c : Compiler) : Header where
  required := c.signerCount.toUInt8
  readonlySigned := (c.group true false).length.toUInt8
  readonlyUnsigned := (c.group false false).length.toUInt8

def setIndex (c : Compiler) (a : Address) (index : Nat) : Compiler :=
  match c.positions.lookup? a with
  | some i => { c with seen := c.seen.modify i fun s => { s with index := index.toUInt8 } }
  | none => c

/-- Notes the index in the table of each account but the fee payer, whose index is zero. -/
def layOut (c : Compiler) : Compiler :=
  (c.groups.zipIdx 1).foldl (fun c (a, i) => c.setIndex a.address i) c

def index (c : Compiler) (a : Address) : UInt8 :=
  match c.positions.lookup? a with
  | some i => (c.seen.getD i { address := a, signer := false, writable := false }).index
  | none => 0

def resolve (c : Compiler) (ix : Instruction) : CompiledInstruction where
  program := c.index ix.program
  accounts := ix.accounts.map fun a => c.index a.address
  data := ix.data

/-- The signers and the accounts that were collected are not too many. -/
def checkCounts (c : Compiler) : Except Fault Unit :=
  if maxSigners < c.signerCount then .error (.tooManySigners c.signerCount)
  else if maxAccounts < c.seen.size then .error (.tooManyAccounts c.seen.size)
  else .ok ()

/-- The message of the accounts that were collected, whatever its size. -/
def message (c : Compiler) (version : Version) (feePayer : Address) (recentHash : Hash)
    (ixs : List Instruction) : Message where
  version := version
  header := c.header
  keys := feePayer :: c.groups.map (·.address)
  recentHash := recentHash
  instructions := ixs.map c.layOut.resolve

/-- Compiles the message, and leaves what was collected for it. -/
def compile (c : Compiler) (version : Version) (feePayer : Address) (recentHash : Hash)
    (ixs : List Instruction) : Except Fault Message × Compiler :=
  let c := c.collect feePayer ixs
  match c.checkCounts with
  | .error f => (.error f, c)
  | .ok () =>
    let m := c.message version feePayer recentHash ixs
    match m.sizeInPacket with
    | .error f => (.error f, c.layOut)
    | .ok _ => (.ok m, c.layOut)

end Compiler

/-- The message of a fee payer, a recent block hash and instructions. -/
def Message.compile (version : Version) (feePayer : Address) (recentHash : Hash)
    (ixs : List Instruction) : Except Fault Message :=
  (Compiler.empty.compile version feePayer recentHash ixs).1

end OfflineTx
