import OfflineTx.DraftMessage
import OfflineTx.Transaction.Listing
import OfflineTx.Transaction.Signing

/-!
# Drafts

A draft is a transaction that is worked on by calls. The draft and its message each report the
last call made on them. A call on the draft that also calls its message is reported by both, and a
fault of the message is then the fault of the draft.
-/

namespace OfflineTx

open Method Wire

structure Draft where
  signatures : List Signature := []
  message : DraftMessage := .empty
  errors : ErrorState := .clear

namespace Draft

def empty : Draft := {}

instance : Inhabited Draft := ⟨empty⟩

/-- A message that was just built, with zero slots. -/
def ofMessage (m : Message) : Draft where
  signatures := Transaction.zeroSlots m
  message := .fresh m

/-- The transaction itself. -/
def content (d : Draft) : Transaction where
  signatures := d.signatures
  message := d.message.value

instance : Reporter Draft where
  errors := Draft.errors
  report errors d := { d with errors }

def messagePart : Part Draft DraftMessage where
  get := Draft.message
  set message d := { d with message }

/-- The message together with what it is read from. -/
def messageAndCursor : Part (Draft × Cursor) (DraftMessage × Cursor) where
  get s := (s.1.message, s.2)
  set t s := ({ s.1 with message := t.1 }, t.2)

def resetSlots (d : Draft) : Draft :=
  { d with signatures := Transaction.zeroSlots d.message.value }

def encode (d : Draft) : Reply Draft Bytes := run d do
  reset
  check (Transaction.checkSlots d.content.message.required d.signatures.length)
  let message ← callOn messagePart DraftMessage.encode
  pure (Transaction.signaturesWire d.signatures ++ message)

/-- The size on the wire, or zero if there is no wire form. -/
def size (d : Draft) : Nat × Draft :=
  let reply := d.encode
  (match reply.answer with
    | .ok bs => bs.length
    | .error _ => 0, reply.after)

def encodeText (codec : TextCodec) (d : Draft) : Reply Draft Bytes := run d do
  let bs ← call encode
  pure (Transaction.writeText codec bs)

/-- Takes over signatures that match the message, which was read behind them up to the end. -/
def keep (signatures : List Signature) : Method (Draft × Cursor) Unit := do
  let (d, c) ← get
  check (Transaction.checkSlots d.content.message.required signatures.length)
  check (Transaction.checkEnd c.value)
  modify fun (d, c) => ({ d with signatures }, c)

def read : Method (Draft × Cursor) Unit := do
  reset
  let signatures ← reading Transaction.readSignatures
  callOn messageAndCursor fun (m, c) => m.decode c
  keep signatures

/-- Holds nothing, and reports what it did. -/
def emptied (d : Draft) : Draft :=
  { d with signatures := [], message.value := .empty }

/-- A transaction that cannot be read leaves an empty one. -/
def decode (d : Draft) (bs : Bytes) : Reply Draft Unit :=
  run d (orElse emptied (beside (.ofBytes bs) read))

def decodeText (codec : TextCodec) (d : Draft) (text : Bytes) : Reply Draft Unit :=
  run d <| orElse emptied do
    let bs ← check (Transaction.readText codec text)
    call fun d => d.decode bs

/-- What the log says of a slot that was filled. -/
def filledEntry (slot : Nat × Address) : Log.Entry :=
  Log.note "signed transaction" [("account", .base58 slot.2), ("slot", .number slot.1)]

/-- Makes the slots anew if they do not match the header. -/
def fitSlots (d : Draft) : Draft :=
  if d.content.slotsMatch then d else d.resetSlots

/-- A signer that fails leaves the slots filled before. -/
def fillSlots (message : Bytes) (slots : List Slot) : Method Draft Unit := do
  let signing := Signing.fill message 0 slots (← get).signatures
  modify fun d => { d with signatures := signing.signatures }
  note (signing.filled.map filledEntry)
  match signing.failed with
  | some a => fail (.signingFailed a)
  | none => pure ()

/-- Signs with those of the signers that the message requires. -/
def signWith (completeness : Completeness) (d : Draft) (signers : List Signer) :
    Reply Draft Unit := run d do
  reset
  let slots ← check (d.content.slots completeness signers)
  let message ← callOn messagePart DraftMessage.encode
  modify fitSlots
  fillSlots message slots

/-- Signs with all required signers. -/
def sign (d : Draft) (signers : List Signer) : Reply Draft Unit :=
  d.signWith .full signers

/-- Signs with those required signers that are at hand. -/
def partialSign (d : Draft) (signers : List Signer) : Reply Draft Unit :=
  d.signWith .partly signers

def verify (d : Draft) : Reply Draft Unit := run d do
  reset
  let t := d.content
  check (if t.slotsFit then .ok ()
    else .error (.slotsDiffer t.message.required t.signatures.length))
  let message ← callOn messagePart DraftMessage.encode
  match Transaction.rejected? message t.message.keys t.signatures with
  | some a => fail (.signatureRejected a)
  | none => pure ()

def appendedEntry (ix : Instruction) (m : Message) : Log.Entry :=
  Log.note "appended instruction" [("program_id", .base58 ix.program),
    ("num_accounts", .number m.keys.length), ("num_instructions", .number m.instructions.length)]

/-- Appends an instruction and makes the slots anew, since old signatures are of another
message. -/
def append (d : Draft) (ix : Instruction) : Reply Draft Unit := run d do
  reset
  callOn messagePart fun m => m.append ix
  modify resetSlots
  note [appendedEntry ix (← get).content.message]

def inspect (d : Draft) : Bytes :=
  d.content.inspect

/-- One line of counts. Finding the size is a call that is reported. -/
def summary (d : Draft) : Bytes × Draft :=
  let (size, after) := d.size
  (d.content.summary size, after)

end Draft

end OfflineTx
