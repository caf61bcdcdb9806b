import OfflineTx.Instruction

/-!
# Messages

A message holds a table of account addresses and instructions that refer to it by index. The
table is ordered by permission: the signers come first, and among the signers as among the others
those come first that may be written. The header counts the groups. A message of version 0 may
also load accounts from lookup tables; they follow those of its own table.
-/

namespace OfflineTx

inductive Version
  | legacy
  | v0
deriving DecidableEq

/-- The sizes of the groups of the account table. -/
structure Header where
  required : UInt8 := 0
  readonlySigned : UInt8 := 0
  readonlyUnsigned : UInt8 := 0
deriving DecidableEq

/-- An instruction by indices. -/
structure CompiledInstruction where
  program : UInt8
  accounts : Bytes
  data : Bytes
deriving DecidableEq

/-- Indices into a lookup table: accounts loaded to be written, and accounts loaded to be read. -/
structure Lookup where
  table : Address
  writable : Bytes
  readonly : Bytes
deriving DecidableEq

@[ext]
structure Message where
  version : Version := .legacy
  header : Header := {}
  keys : List Address := []
  recentHash : Hash := .zero 32
  instructions : List CompiledInstruction := []
  lookups : List Lookup := []
deriving DecidableEq

namespace Message

def empty : Message := {}

instance : Inhabited Message := ⟨empty⟩

/-- The number of signatures that a transaction needs to carry. -/
def required (m : Message) : Nat :=
  m.header.required.toNat

theorem required_lt (m : Message) : m.required < 256 :=
  m.header.required.toNat_lt

/-- The counts by which an index tells whether its account signs and may be written. -/
structure Groups where
  signers : UInt64
  readonlySigned : UInt64
  keys : UInt64
  readonlyUnsigned : UInt64
  loadedWritable : UInt64
deriving DecidableEq

def Groups.isSigner (g : Groups) (index : UInt64) : Bool :=
  index < g.signers

/-- Differences are taken modulo `2 ^ 64`. -/
def Groups.isWritable (g : Groups) (index : UInt64) : Bool :=
  if index < g.signers then index < g.signers - g.readonlySigned
  else if index < g.keys then index < g.keys - g.readonlyUnsigned
  else index - g.keys < g.loadedWritable

def groups (m : Message) : Groups where
  signers := m.header.required.toUInt64
  readonlySigned := m.header.readonlySigned.toUInt64
  keys := UInt64.ofNat m.keys.length
  readonlyUnsigned := m.header.readonlyUnsigned.toUInt64
  loadedWritable := UInt64.ofNat (m.lookups.flatMap (·.writable)).length

def isSigner (m : Message) (index : UInt64) : Bool :=
  m.groups.isSigner index

def isWritable (m : Message) (index : UInt64) : Bool :=
  m.groups.isWritable index

/-- Where an address stands first in the table. -/
def indexOf? (m : Message) (a : Address) : Option Nat :=
  m.keys.findIdx? (· == a)

/-- The number of accounts that indices refer to. -/
def accountCount (m : Message) : Nat :=
  m.keys.length + (m.lookups.flatMap fun l => l.writable ++ l.readonly).length

end Message

end OfflineTx
