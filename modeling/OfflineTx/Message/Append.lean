import OfflineTx.Message.Size

/-!
# Appending instructions

An instruction is appended to a legacy message without a change to who signs. Accounts already in
the table keep their permissions and have to have those asked for. New accounts do not sign: those
to be written go to the end of the writable accounts, the others to the end of the table, and
indices behind the first are shifted.
-/

namespace OfflineTx

/-- An account that is not yet in the table. -/
structure NewAccount where
  address : Address
  writable : Bool
deriving DecidableEq

/-- The new accounts after one more reference to one of them, the newest first. An account may be
written if any reference says so. -/
def NewAccount.refer (news : List NewAccount) (a : AccountMeta) : List NewAccount :=
  if news.any (·.address == a.address) then
    if a.writable then
      news.map fun n => if n.address == a.address then { n with writable := true } else n
    else news
  else { address := a.address, writable := a.writable } :: news

namespace Message

/-- Whether the account at the index has the permissions asked for. -/
def grants (m : Message) (index : Nat) (a : AccountMeta) : Bool :=
  let i := UInt64.ofNat index
  (!a.signer || m.isSigner i) && (!a.writable || m.isWritable i)

/-- The new accounts after one more reference, the newest first. -/
def enroll (m : Message) (news : List NewAccount) (a : AccountMeta) :
    Except Fault (List NewAccount) :=
  match m.indexOf? a.address with
  | some i => if m.grants i a then .ok news else .error (.permissionLacking a.address)
  | none =>
    if a.signer then .error (.signerNotInTable a.address) else .ok (NewAccount.refer news a)

/-- The new accounts after a row of references, in the order in which they were first seen. Those
seen before the row stand newest first. -/
def enrollAll (m : Message) : List NewAccount → List AccountMeta → Except Fault (List NewAccount)
  | news, [] => .ok news.reverse
  | news, a :: as =>
    match m.enroll news a with
    | .error f => .error f
    | .ok news => enrollAll m news as

/-- Where the new accounts that may be written begin. -/
def insertionPoint (m : Message) : Nat :=
  m.keys.length - m.header.readonlyUnsigned.toNat

/-- An index after `count` accounts were put in at `point`. -/
def shiftIndex (point count : Nat) (index : UInt8) : UInt8 :=
  if point ≤ index.toNat then index + count.toUInt8 else index

def shiftInstruction (point count : Nat) (ix : CompiledInstruction) : CompiledInstruction :=
  { ix with
    program := shiftIndex point count ix.program
    accounts := ix.accounts.map (shiftIndex point count) }

/-- The message with the new accounts in its table. -/
def extend (m : Message) (writable readonly : List Address) : Message :=
  let point := m.insertionPoint
  { m with
    header.readonlyUnsigned := m.header.readonlyUnsigned + readonly.length.toUInt8
    keys := m.keys.take point ++ writable ++ m.keys.drop point ++ readonly
    instructions := m.instructions.map (shiftInstruction point writable.length) }

/-- An instruction by indices into the table, which holds its addresses. -/
def resolve (m : Message) (ix : Instruction) : CompiledInstruction :=
  let index a := ((m.indexOf? a).getD m.keys.length).toUInt8
  { program := index ix.program
    accounts := ix.accounts.map fun a => index a.address
    data := ix.data }

/-- The message with the instruction behind the others, whatever its size. -/
def joined (m : Message) (ix : Instruction) : Except Fault Message :=
  match m.version with
  | .v0 => .error .notLegacy
  | .legacy =>
    match m.enrollAll [] ix.references with
    | .error f => .error f
    | .ok news =>
      let (writable, readonly) := news.partition (·.writable)
      let count := m.keys.length + news.length
      if maxAccounts < count ∨ 255 < m.header.readonlyUnsigned.toNat + readonly.length then
        .error (.tooManyAccounts count)
      else
        let extended := m.extend (writable.map (·.address)) (readonly.map (·.address))
        .ok { extended with instructions := extended.instructions ++ [extended.resolve ix] }

/-- The message with the instruction, which has to fit a packet. -/
def append (m : Message) (ix : Instruction) : Except Fault Message :=
  match m.joined ix with
  | .error f => .error f
  | .ok new =>
    match new.sizeInPacket with
    | .error f => .error f
    | .ok _ => .ok new

end Message

end OfflineTx
