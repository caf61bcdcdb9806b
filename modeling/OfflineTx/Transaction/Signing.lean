import OfflineTx.Key.Pair
import OfflineTx.Transaction.Codec

/-!
# Signing transactions

The first signers of the account table have to sign the wire form of the message. Signers are
matched to slots by address before any slot is touched. Then the slots are filled in order, up to
the first signer that fails.
-/

namespace OfflineTx

/-- How a transaction is signed: by all the signers it requires, or by some. -/
inductive Completeness
  | full
  | partly
deriving DecidableEq

/-- A slot: whose signature it takes, and who of those at hand can give it. -/
structure Slot where
  address : Address
  signer? : Option Signer

/-- What came of signing: the slots, those that were filled, and the one that failed. -/
structure Signing where
  signatures : List Signature
  filled : List (Nat × Address) := []
  failed : Option Address := none

/-- Fills the slots from the `i`-th on. Slots without a signer keep their signature. -/
def Signing.fill (message : Bytes) : Nat → List Slot → List Signature → Signing
  | i, slot :: slots, signature :: signatures =>
    match slot.signer? with
    | none =>
      let rest := fill message (i + 1) slots signatures
      { rest with signatures := signature :: rest.signatures }
    | some signer =>
      match signer.sign message with
      | none => { signatures := signature :: signatures, failed := some slot.address }
      | some signature =>
        let rest := fill message (i + 1) slots signatures
        { rest with
          signatures := signature :: rest.signatures
          filled := (i, slot.address) :: rest.filled }
  | _, _, signatures => { signatures }

namespace Transaction

/-- The slots that the message requires, with the first signer at hand for each. -/
def slots (t : Transaction) (completeness : Completeness) (signers : List Signer) :
    Except Fault (List Slot) :=
  let keys := t.message.keys
  let required := t.message.required
  if keys.length < required then .error (.signersExceedKeys keys.length required)
  else
    let slots := (keys.take required).map fun a =>
      { address := a, signer? := signers.find? (·.address == a) }
    match completeness, slots.find? (·.signer?.isNone) with
    | .full, some slot => .error (.signerMissing slot.address)
    | _, _ => .ok slots

/-- The outcome of a call that signs: the answer, the transaction after it, and the slots that
were filled. -/
structure Signed where
  answer : Except Fault Unit
  transaction : Transaction
  filled : List (Nat × Address)

/-- Signs with those of the signers that the message requires. Slots that do not match the header
are first made anew. A signer that fails leaves the slots filled before. -/
def signWith (t : Transaction) (completeness : Completeness) (signers : List Signer) : Signed :=
  match t.slots completeness signers with
  | .error f => ⟨.error f, t, []⟩
  | .ok slots =>
    match t.message.encode with
    | .error f => ⟨.error f, t, []⟩
    | .ok message =>
      let t := if t.slotsMatch then t else t.resetSlots
      let signing := Signing.fill message 0 slots t.signatures
      let answer := match signing.failed with
        | some a => .error (.signingFailed a)
        | none => .ok ()
      ⟨answer, { t with signatures := signing.signatures }, signing.filled⟩

/-- Whether the slots match the header and the account table. -/
def slotsFit (t : Transaction) : Bool :=
  t.slotsMatch && t.signatures.length ≤ t.message.keys.length

/-- The first address whose slot does not hold its signature of the message. -/
def rejected? (message : Bytes) (addresses : List Address) (signatures : List Signature) :
    Option Address :=
  ((addresses.zip signatures).find? fun (a, s) => !Ed25519.verify s message a).map Prod.fst

def verify (t : Transaction) : Except Fault Unit :=
  if t.slotsFit then
    match t.message.encode with
    | .error f => .error f
    | .ok message =>
      match rejected? message t.message.keys t.signatures with
      | some a => .error (.signatureRejected a)
      | none => .ok ()
  else .error (.slotsDiffer t.message.required t.signatures.length)

end Transaction

end OfflineTx
