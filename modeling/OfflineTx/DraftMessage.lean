import OfflineTx.Message.Append
import OfflineTx.Wire.Cursor

/-!
# Draft messages

A draft message is a message that is worked on by calls. Where it needs the size of a message that
is to replace another, that one is an object of its own until it does.
-/

namespace OfflineTx

open Method Wire

/-- A message that reports its calls. -/
abbrev DraftMessage := Tracked Message

namespace DraftMessage

def empty : DraftMessage := .fresh .empty

/-- The length of the list can be written. -/
def checkLength (l : Overlong) : Except Fault Unit :=
  if 0xffff < l.length then .error (.overlong l) else .ok ()

def encode (m : DraftMessage) : Reply DraftMessage Bytes := run m do
  reset
  check (m.value.lists.forM checkLength)
  pure m.value.wire

def transactionSize (m : DraftMessage) : Reply DraftMessage Nat := run m do
  let bs ← call encode
  pure (m.value.sizeAround bs)

/-- A message that is not the object itself, after it was found that a transaction with it fits a
packet, and the size of that. -/
def inPacket {σ : Type} [Reporter σ] (m : DraftMessage) : Method σ (DraftMessage × Nat) :=
  let sized := m.transactionSize
  match sized.answer with
  | .error f => failWith f.unsized sized.after.errors.message
  | .ok size =>
    if maxPacket < size then fail (.transactionTooLarge size) else pure (sized.after, size)

/-- The instruction is appended to a copy, which replaces the message if it fits a packet. -/
def append (m : DraftMessage) (ix : Instruction) : Reply DraftMessage Unit := run m do
  reset
  let copy ← get
  let new ← check (copy.value.joined ix)
  let (copy, _) ← inPacket { copy with value := new }
  modify fun _ => copy

section Reading

variable {σ : Type} [Reporter σ]

def readVersion : Method (σ × Cursor) Version := do
  let offset ← reading fun r => pure (r.offset, r)
  let first ← reading fun r => (r.peek (ascii "message header")).map (·, r)
  if first < 0x80 then pure .legacy
  else
    let byte ← reading (Reader.byte (ascii "version prefix"))
    if byte = 0x80 then pure .v0
    else fail (.unknownVersion offset (byte.toNat - 0x80))

def read : Method (σ × Cursor) Message := do
  let version ← readVersion
  let header ← reading Message.readHeader
  let keys ← reading Message.readKeys
  check (Message.checkHeader header keys.length)
  let recentHash ← reading (Reader.fixed 32 (ascii "recent block hash"))
  let instructions ← reading (Reader.elements (ascii "instructions") 3 Message.readInstruction)
  let lookups ← reading (Message.readLookups version)
  let m : Message := { version, header, keys, recentHash, instructions, lookups }
  check (Message.checkInstructions m.accountCount 0 instructions)
  pure m

end Reading

/-- A message that cannot be read leaves an empty one. -/
def decode (m : DraftMessage) (c : Cursor) : Reply (DraftMessage × Cursor) Unit := run (m, c) do
  modify fun (m, c) => ({ m with value := .empty }, c)
  reset
  let new ← read
  modify fun (m, c) => ({ m with value := new }, c)

end DraftMessage

end OfflineTx
