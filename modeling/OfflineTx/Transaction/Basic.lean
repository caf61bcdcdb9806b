import OfflineTx.Message.Basic

/-!
# Transactions

A transaction is a message with a slot for each signature. A slot not yet signed is zero.
-/

namespace OfflineTx

structure Transaction where
  signatures : List Signature := []
  message : Message := {}
deriving DecidableEq

namespace Transaction

def empty : Transaction := {}

instance : Inhabited Transaction := ⟨empty⟩

/-- Zero slots, as many as the message requires. -/
def zeroSlots (m : Message) : List Signature :=
  List.replicate m.required (.zero 64)

def resetSlots (t : Transaction) : Transaction :=
  { t with signatures := zeroSlots t.message }

/-- Whether there are as many slots as the message requires. -/
def slotsMatch (t : Transaction) : Bool :=
  t.signatures.length == t.message.required

def isSigned (t : Transaction) : Bool :=
  t.slotsMatch && t.signatures.all fun s => !s.isZero

@[simp] theorem length_zeroSlots (m : Message) : (zeroSlots m).length = m.required := by
  simp [zeroSlots]

end Transaction

end OfflineTx
