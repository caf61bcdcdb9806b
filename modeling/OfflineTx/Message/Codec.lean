import OfflineTx.Fault
import OfflineTx.Message.Basic
import OfflineTx.Wire.Reader

/-!
# The wire form of messages

A message of version 0 begins with the byte `0x80`. Then come the header, the account table, the
recent block hash, the instructions and, in version 0 only, the lookups, with each list behind
its length. A message whose lists are too long for their lengths has no wire form.
-/

namespace OfflineTx

open Wire

def Version.wire : Version → Bytes
  | .legacy => []
  | .v0 => [0x80]

def Header.wire (h : Header) : Bytes :=
  [h.required, h.readonlySigned, h.readonlyUnsigned]

def CompiledInstruction.wire (ix : CompiledInstruction) : Bytes :=
  ix.program :: (counted ix.accounts ++ counted ix.data)

def Lookup.wire (l : Lookup) : Bytes :=
  l.table.bytes ++ (counted l.writable ++ counted l.readonly)

namespace Message

/-- A list of elements behind its length. -/
def listWire {α : Type} (wire : α → Bytes) (xs : List α) : Bytes :=
  CompactLength.encode (UInt16.ofNat xs.length) ++ xs.flatMap wire

def lookupsWire (m : Message) : Bytes :=
  match m.version with
  | .legacy => []
  | .v0 => listWire Lookup.wire m.lookups

def wire (m : Message) : Bytes :=
  m.version.wire ++ (m.header.wire ++ (listWire FixedBytes.bytes m.keys ++
    (m.recentHash.bytes ++ (listWire CompiledInstruction.wire m.instructions ++ m.lookupsWire))))

/-- The lists of a message in the order in which they are written. -/
def lists (m : Message) : List Overlong :=
  ⟨.keys, m.keys.length⟩ :: ⟨.instructions, m.instructions.length⟩ ::
    m.instructions.flatMap (fun ix => [⟨.accounts, ix.accounts.length⟩, ⟨.data, ix.data.length⟩]) ++
    match m.version with
    | .legacy => []
    | .v0 => ⟨.lookups, m.lookups.length⟩ ::
      m.lookups.flatMap fun l => [⟨.writable, l.writable.length⟩, ⟨.readonly, l.readonly.length⟩]

/-- The first list that is too long for its length to be written. -/
def overlong? (m : Message) : Option Overlong :=
  m.lists.find? fun l => 0xffff < l.length

def encode (m : Message) : Except Fault Bytes :=
  match m.overlong? with
  | some l => .error (.overlong l)
  | none => .ok m.wire

/-- Reads the version byte, if there is one. Without it the top bit of the first byte is clear. -/
def readVersion (r : Reader) : Except Fault (Version × Reader) := do
  let first ← r.peek (ascii "message header")
  if first < 0x80 then pure (.legacy, r)
  else
    let (byte, next) ← r.byte (ascii "version prefix")
    if byte = 0x80 then pure (.v0, next)
    else throw (.unknownVersion r.offset (byte.toNat - 0x80))

def readHeader (r : Reader) : Except Fault (Header × Reader) := do
  let what := ascii "message header"
  let (required, r) ← r.byte what
  let (readonlySigned, r) ← r.byte what
  let (readonlyUnsigned, r) ← r.byte what
  pure ({ required, readonlySigned, readonlyUnsigned }, r)

def readKeys (r : Reader) : Except Fault (List Address × Reader) :=
  r.elements (ascii "account keys") 32 (Reader.fixed 32 (ascii "account key"))

/-- The groups that the header counts have to fit one another and the table. -/
def checkHeader (h : Header) (keys : Nat) : Except Fault Unit :=
  let required := h.required.toNat
  if keys < required then .error (.signersExceedKeys keys required)
  else if required < h.readonlySigned.toNat then
    .error (.readonlyExceedSigners required h.readonlySigned.toNat)
  else if keys - required < h.readonlyUnsigned.toNat then
    .error (.readonlyExceedOthers (keys - required) h.readonlyUnsigned.toNat)
  else .ok ()

def readInstruction (r : Reader) : Except Fault (CompiledInstruction × Reader) := do
  let (program, r) ← r.byte (ascii "program index")
  let (accounts, r) ← r.counted (ascii "instruction accounts")
  let (data, r) ← r.counted (ascii "instruction data")
  pure ({ program, accounts, data }, r)

def readLookup (r : Reader) : Except Fault (Lookup × Reader) := do
  let (table, r) ← r.fixed 32 (ascii "lookup table key")
  let (writable, r) ← r.counted (ascii "writable lookup indices")
  let (readonly, r) ← r.counted (ascii "readonly lookup indices")
  pure ({ table, writable, readonly }, r)

def readLookups (version : Version) (r : Reader) : Except Fault (List Lookup × Reader) :=
  match version with
  | .legacy => pure ([], r)
  | .v0 => r.elements (ascii "lookups") 34 readLookup

/-- Every index of the instruction, which is the `i`-th, is below the number of accounts. -/
def checkIndices (accounts i : Nat) (ix : CompiledInstruction) : Except Fault Unit :=
  if accounts ≤ ix.program.toNat then
    .error (.programOutOfRange i ix.program.toNat accounts)
  else match ix.accounts.find? (fun index => accounts ≤ index.toNat) with
    | some index => .error (.accountOutOfRange i index.toNat accounts)
    | none => .ok ()

/-- Checks the instructions from the `i`-th on. -/
def checkInstructions (accounts : Nat) : Nat → List CompiledInstruction → Except Fault Unit
  | _, [] => .ok ()
  | i, ix :: ixs =>
    match checkIndices accounts i ix with
    | .error f => .error f
    | .ok () => checkInstructions accounts (i + 1) ixs

/-- Reads a message from where the reader stands. -/
def decode (r : Reader) : Except Fault (Message × Reader) := do
  let (version, r) ← readVersion r
  let (header, r) ← readHeader r
  let (keys, r) ← readKeys r
  checkHeader header keys.length
  let (recentHash, r) ← r.fixed 32 (ascii "recent block hash")
  let (instructions, r) ← r.elements (ascii "instructions") 3 readInstruction
  let (lookups, r) ← readLookups version r
  let m : Message := { version, header, keys, recentHash, instructions, lookups }
  checkInstructions m.accountCount 0 instructions
  pure (m, r)

end Message

end OfflineTx
