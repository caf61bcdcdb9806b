import OfflineTx.Bytes

/-!
# Kinds of fault

Each kind of fault has a code and a short name. Code zero means that nothing went wrong.
-/

namespace OfflineTx

inductive FaultKind
  | seedTooLong
  | tooManySeeds
  | onCurve
  | bumpExhausted
  | tooManySignatures
  | accountLimit
  | messageTooLarge
  | emptyInstructions
  | missingField
  | truncated
  | malformedLength
  | inconsistentHeader
  | trailingBytes
  | unsupportedVersion
  | invalidIndex
  | missingSigner
  | accountPermission
  | invalidKey
  | crypto
  | io
deriving DecidableEq

namespace FaultKind

/-- The kinds in the order of their codes. -/
def all : List FaultKind :=
  [seedTooLong, tooManySeeds, onCurve, bumpExhausted, tooManySignatures, accountLimit,
    messageTooLarge, emptyInstructions, missingField, truncated, malformedLength,
    inconsistentHeader, trailingBytes, unsupportedVersion, invalidIndex, missingSigner,
    accountPermission, invalidKey, crypto, io]

def code (k : FaultKind) : Int :=
  all.idxOf k + 1

def ofCode? (code : Int) : Option FaultKind :=
  all.find? fun k => k.code == code

theorem code_pos (k : FaultKind) : 0 < k.code := by
  unfold code
  omega

def name : FaultKind → Bytes
  | seedTooLong => ascii "seed_too_long"
  | tooManySeeds => ascii "too_many_seeds"
  | onCurve => ascii "on_curve"
  | bumpExhausted => ascii "bump_exhausted"
  | tooManySignatures => ascii "too_many_signatures"
  | accountLimit => ascii "account_limit"
  | messageTooLarge => ascii "msg_too_large"
  | emptyInstructions => ascii "empty_instructions"
  | missingField => ascii "missing_field"
  | truncated => ascii "truncated"
  | malformedLength => ascii "malformed_len"
  | inconsistentHeader => ascii "inconsistent_header"
  | trailingBytes => ascii "trailing_bytes"
  | unsupportedVersion => ascii "unsupported_version"
  | invalidIndex => ascii "invalid_index"
  | missingSigner => ascii "missing_signer"
  | accountPermission => ascii "account_permission"
  | invalidKey => ascii "invalid_key"
  | crypto => ascii "crypto"
  | io => ascii "io"

end FaultKind

/-- The short name of a code, whether it is the code of a kind or not. -/
def codeName (code : Int) : Bytes :=
  if code = 0 then ascii "ok"
  else match FaultKind.ofCode? code with
    | some k => k.name
    | none => ascii "unknown"

end OfflineTx
