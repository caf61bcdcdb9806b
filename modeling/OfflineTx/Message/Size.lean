import OfflineTx.Message.Codec

/-!
# The size of a transaction

A transaction is its message behind as many signatures as the header requires. It has to fit one
packet.
-/

namespace OfflineTx.Message

/-- The size of a transaction whose message has the given bytes. -/
def sizeAround (m : Message) (bs : Bytes) : Nat :=
  CompactLength.size m.header.required.toUInt16 + m.required * 64 + bs.length

/-- The size of a transaction with this message, if the message can be written. -/
def transactionSize (m : Message) : Except Fault Nat :=
  match m.encode with
  | .error f => .error f
  | .ok bs => .ok (m.sizeAround bs)

/-- The size of a transaction with this message, if it fits a packet. -/
def sizeInPacket (m : Message) : Except Fault Nat :=
  match m.overlong? with
  | some l => .error (.transactionUnsized l)
  | none =>
    match m.transactionSize with
    | .error f => .error f
    | .ok size => if maxPacket < size then .error (.transactionTooLarge size) else .ok size

end OfflineTx.Message
