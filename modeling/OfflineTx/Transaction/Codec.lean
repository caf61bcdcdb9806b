import OfflineTx.Message.Codec
import OfflineTx.Text.Base64
import OfflineTx.Transaction.Basic

/-!
# The wire form of transactions

The signatures stand behind their number, and the message follows. There are as many signatures
as the header requires, and nothing follows the message. The wire form can be written as text.
-/

namespace OfflineTx.Transaction

open Wire

def checkSlots (required slots : Nat) : Except Fault Unit :=
  if slots = required then .ok () else .error (.slotsDiffer required slots)

def signaturesWire (signatures : List Signature) : Bytes :=
  Message.listWire FixedBytes.bytes signatures

def encode (t : Transaction) : Except Fault Bytes := do
  checkSlots t.message.required t.signatures.length
  let message ← t.message.encode
  pure (signaturesWire t.signatures ++ message)

def readSignatures (r : Reader) : Except Fault (List Signature × Reader) :=
  r.elements (ascii "signatures") 64 (Reader.fixed 64 (ascii "signature"))

/-- Nothing may follow. -/
def checkEnd (r : Reader) : Except Fault Unit :=
  if r.atEnd then .ok () else .error (.trailingBytes r.offset r.rest.length)

def decode (bs : Bytes) : Except Fault Transaction := do
  let (signatures, r) ← readSignatures (.ofBytes bs)
  let (message, r) ← Message.decode r
  checkSlots message.required signatures.length
  checkEnd r
  pure { signatures, message }

/-- The text of bytes. The room for base-58 text is twice the number of bytes and two more. -/
def writeText (codec : TextCodec) (bs : Bytes) : Bytes :=
  match codec with
  | .base58 => (Base58.encode? (2 * bs.length + 2) bs).getD []
  | .base64 => Base64.encode bs

/-- The bytes of a text. The room for those of base-58 text is one more than the characters. -/
def readText (codec : TextCodec) (text : Bytes) : Except Fault Bytes :=
  let bytes := match codec with
    | .base58 => Base58.decode? (text.length + 1) text
    | .base64 => Base64.decode? text
  match bytes with
  | none => .error (.notText codec)
  | some bs => .ok bs

def encodeText (codec : TextCodec) (t : Transaction) : Except Fault Bytes :=
  t.encode.map (writeText codec)

def decodeText (codec : TextCodec) (text : Bytes) : Except Fault Transaction :=
  match readText codec text with
  | .error f => .error f
  | .ok bs => decode bs

end OfflineTx.Transaction
