import OfflineTx.Bytes.Fixed
import OfflineTx.Fault.Kind
import OfflineTx.Fault.System
import OfflineTx.Limits
import OfflineTx.Text.Base58

/-!
# Faults

A fault says why a call failed: what was found, where, and what was allowed. Its kind is what a
caller branches on, and its message is what a person reads.
-/

namespace OfflineTx

/-- The lists of a message that stand on the wire behind their length. -/
inductive CountedList
  | keys
  | instructions
  | accounts
  | data
  | lookups
  | writable
  | readonly
deriving DecidableEq

def CountedList.name : CountedList → Bytes
  | keys => ascii "account keys"
  | instructions => ascii "instructions"
  | accounts => ascii "instruction accounts"
  | data => ascii "instruction data"
  | lookups => ascii "lookups"
  | writable => ascii "writable lookup indices"
  | readonly => ascii "readonly lookup indices"

inductive TextCodec
  | base58
  | base64
deriving DecidableEq

/-- What keeps a directory from being a key store. -/
inductive DirectoryDefect
  | notDirectory
  | notOwned
  | notReadable
  | notWritable
  | notPrivate
deriving DecidableEq

/-- A list too long for its length to be written. -/
structure Overlong where
  list : CountedList
  length : Nat
deriving DecidableEq

inductive Fault
  /-- The input ends inside the field `what`. -/
  | truncatedField (what : Bytes) (offset need left : Nat)
  /-- The input ends inside the length of `what`. -/
  | truncatedLength (what : Bytes) (offset : Nat)
  | malformedLength (what : Bytes) (offset : Nat)
  | overlong (list : Overlong)
  | unknownVersion (offset version : Nat)
  | signersExceedKeys (keys signers : Nat)
  | readonlyExceedSigners (signers readonly : Nat)
  | readonlyExceedOthers (others readonly : Nat)
  | programOutOfRange (instruction index accounts : Nat)
  | accountOutOfRange (instruction index accounts : Nat)
  /-- Only messages of the legacy version take further instructions. -/
  | notLegacy
  | permissionLacking (account : Address)
  | signerNotInTable (account : Address)
  | tooManyAccounts (count : Nat)
  | tooManySigners (count : Nat)
  | transactionTooLarge (size : Nat)
  /-- A message without a size, because a list in it is too long. -/
  | transactionUnsized (list : Overlong)
  | slotsDiffer (required slots : Nat)
  | trailingBytes (offset count : Nat)
  | notText (codec : TextCodec)
  | signerMissing (account : Address)
  | signingFailed (account : Address)
  | signatureRejected (account : Address)
  | feePayerUnset
  | recentHashUnset
  | noInstructions
  | tooManySeeds (count : Nat)
  | seedTooLong (index length : Nat)
  /-- The derived address is a point of the curve; the bump is the one that was given, if any. -/
  | onCurve (bump : Option UInt8)
  | bumpsExhausted (program : Address)
  | directoryNotFound (number : Int)
  | directoryNotCreated (number : Int)
  | directoryNotOpened (number : Int)
  | directoryUnfit (defect : DirectoryDefect)
  | keyFileInvalid (file : Bytes)
  | keyFileNotWritten (file : Bytes) (number : Int)
  | keyNotGenerated
deriving DecidableEq

namespace Fault

def kind : Fault → FaultKind
  | truncatedField .. => .truncated
  | truncatedLength .. => .truncated
  | malformedLength .. => .malformedLength
  | overlong .. => .malformedLength
  | unknownVersion .. => .unsupportedVersion
  | signersExceedKeys .. => .inconsistentHeader
  | readonlyExceedSigners .. => .inconsistentHeader
  | readonlyExceedOthers .. => .inconsistentHeader
  | programOutOfRange .. => .invalidIndex
  | accountOutOfRange .. => .invalidIndex
  | notLegacy => .unsupportedVersion
  | permissionLacking .. => .accountPermission
  | signerNotInTable .. => .accountPermission
  | tooManyAccounts .. => .accountLimit
  | tooManySigners .. => .tooManySignatures
  | transactionTooLarge .. => .messageTooLarge
  | transactionUnsized .. => .messageTooLarge
  | slotsDiffer .. => .inconsistentHeader
  | trailingBytes .. => .trailingBytes
  | notText .. => .malformedLength
  | signerMissing .. => .missingSigner
  | signingFailed .. => .crypto
  | signatureRejected .. => .crypto
  | feePayerUnset => .missingField
  | recentHashUnset => .missingField
  | noInstructions => .emptyInstructions
  | tooManySeeds .. => .tooManySeeds
  | seedTooLong .. => .seedTooLong
  | onCurve .. => .onCurve
  | bumpsExhausted .. => .bumpExhausted
  | directoryNotFound .. => .io
  | directoryNotCreated .. => .io
  | directoryNotOpened .. => .io
  | directoryUnfit .. => .io
  | keyFileInvalid .. => .invalidKey
  | keyFileNotWritten .. => .io
  | keyNotGenerated => .crypto

/-- Where a message cannot be written, it has no size. -/
def unsized : Fault → Fault
  | overlong list => transactionUnsized list
  | f => f

/-- A remark in square brackets after a text: names and numbers. -/
private def withNumbers (text : String) (fields : List (String × Nat)) : Bytes :=
  let shown := fields.map fun f => ascii f.1 ++ Decimal.ofNat f.2
  ascii text ++ ascii " [" ++ [(32 : UInt8)].intercalate shown ++ ascii "]"

private def withAccount (text : String) (account : Address) : Bytes :=
  ascii text ++ ascii " [account=" ++ account.toBase58 ++ ascii "]"

/-- A text followed by a system error number and its text in square brackets. -/
def withSystemError (text : Bytes) (number : Int) : Bytes :=
  text ++ ascii " [" ++ Decimal.ofInt number ++ ascii " " ++ SystemError.text number ++ ascii "]"

private def overlongText (list : Overlong) : Bytes :=
  ascii "length of " ++ list.list.name ++ ascii " not encodable [len=" ++
    Decimal.ofNat list.length ++ ascii "]"

/-- Names of fields show up to their first zero byte. -/
def message : Fault → Bytes
  | truncatedField what offset need left =>
    ascii "truncated input reading " ++ Bytes.upToZero what ++
      withNumbers "" [("offset=", offset), ("need=", need), ("have=", left)]
  | truncatedLength what offset =>
    ascii "truncated length of " ++ Bytes.upToZero what ++ withNumbers "" [("offset=", offset)]
  | malformedLength what offset =>
    ascii "malformed length of " ++ Bytes.upToZero what ++ withNumbers "" [("offset=", offset)]
  | overlong list => overlongText list
  | unknownVersion offset version =>
    withNumbers "unsupported message version" [("offset=", offset), ("version=", version)]
  | signersExceedKeys keys signers =>
    withNumbers "required signatures exceed account keys"
      [("expected<=", keys), ("found=", signers)]
  | readonlyExceedSigners signers readonly =>
    withNumbers "readonly signed accounts exceed signers"
      [("expected<=", signers), ("found=", readonly)]
  | readonlyExceedOthers others readonly =>
    withNumbers "readonly unsigned accounts exceed unsigned accounts"
      [("expected<=", others), ("found=", readonly)]
  | programOutOfRange instruction index accounts =>
    withNumbers "program index out of range"
      [("instruction=", instruction), ("index=", index), ("accounts=", accounts)]
  | accountOutOfRange instruction index accounts =>
    withNumbers "account index out of range"
      [("instruction=", instruction), ("index=", index), ("accounts=", accounts)]
  | notLegacy => ascii "instructions can only be appended to legacy messages"
  | permissionLacking account => withAccount "account lacks requested permission" account
  | signerNotInTable account => withAccount "signer not in account table" account
  | tooManyAccounts count =>
    withNumbers "too many accounts" [("num=", count), ("max=", maxAccounts)]
  | tooManySigners count =>
    withNumbers "too many signers" [("num=", count), ("max=", maxSigners)]
  | transactionTooLarge size =>
    withNumbers "transaction too large" [("size=", size), ("max=", maxPacket)]
  | transactionUnsized list => overlongText list
  | slotsDiffer required slots =>
    withNumbers "signature count does not match header" [("expected=", required), ("found=", slots)]
  | trailingBytes offset count =>
    withNumbers "trailing bytes after transaction" [("offset=", offset), ("count=", count)]
  | notText .base58 => ascii "invalid base58 text"
  | notText .base64 => ascii "invalid base64 text"
  | signerMissing account => withAccount "missing signer" account
  | signingFailed account => withAccount "failed to sign" account
  | signatureRejected account => withAccount "signature verification failed" account
  | feePayerUnset => ascii "fee payer not set"
  | recentHashUnset => ascii "recent block hash not set"
  | noInstructions => ascii "no instructions"
  | tooManySeeds count =>
    withNumbers "too many seeds" [("num=", count), ("max=", maxSeeds)]
  | seedTooLong index length =>
    withNumbers "seed too long" [("idx=", index), ("len=", length), ("max=", maxSeedLength)]
  | onCurve (some bump) => withNumbers "derived address is on curve" [("bump=", bump.toNat)]
  | onCurve none => ascii "derived address is on curve"
  | bumpsExhausted program =>
    ascii "no off-curve address for any bump seed [program_id=" ++ program.toBase58 ++ ascii "]"
  | directoryNotFound number =>
    withSystemError (ascii "cant find key_store directory") number
  | directoryNotCreated number =>
    withSystemError (ascii "failed to create key_store directory") number
  | directoryNotOpened number =>
    withSystemError (ascii "failed to open key_store directory") number
  | directoryUnfit .notDirectory => ascii "key_store path not a directory"
  | directoryUnfit .notOwned => ascii "user must own the key_store directory"
  | directoryUnfit .notReadable =>
    ascii "user must have read access to key_store directory"
  | directoryUnfit .notWritable =>
    ascii "user must have write access to key_store directory"
  | directoryUnfit .notPrivate =>
    ascii "key store directory must be restricted to user read/write permissions"
  | keyFileInvalid file => ascii "invalid key file [file=" ++ file ++ ascii "]"
  | keyFileNotWritten file number =>
    withSystemError (ascii "failed to write key file [file=" ++ file ++ ascii "]") number
  | keyNotGenerated => ascii "failed to generate key pair"

end Fault

/-- The call fails for a reason of this kind. -/
def FailsFor {α : Type} (answer : Except Fault α) (kind : FaultKind) : Prop :=
  ∃ f, answer = .error f ∧ f.kind = kind

theorem failsFor_error {α : Type} {f : Fault} {kind : FaultKind} :
    FailsFor (.error f : Except Fault α) kind ↔ f.kind = kind := by
  simp [FailsFor]

theorem not_failsFor_ok {α : Type} {a : α} {kind : FaultKind} :
    ¬FailsFor (.ok a : Except Fault α) kind := by
  simp [FailsFor]

/-- Why a call fails, if it does. -/
def failure? {α : Type} : Except Fault α → Option FaultKind
  | .ok _ => none
  | .error f => some f.kind

theorem failure?_eq_some_iff {α : Type} {answer : Except Fault α} {kind : FaultKind} :
    failure? answer = some kind ↔ FailsFor answer kind := by
  cases answer <;> simp [failure?, FailsFor]

theorem failure?_eq_none_iff {α : Type} {answer : Except Fault α} :
    failure? answer = none ↔ ∃ a, answer = .ok a := by
  cases answer <;> simp [failure?]

theorem failure?_map {α β : Type} (answer : Except Fault α) (g : α → β) :
    failure? (answer.map g) = failure? answer := by
  cases answer <;> rfl

end OfflineTx
