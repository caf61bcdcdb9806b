import OfflineTx.Curve.Membership
import OfflineTx.Digest.Sha256
import OfflineTx.Method
import OfflineTx.Program

/-!
# Derived addresses

A program owns the addresses that are digests of seeds, its own address and a marker, provided
they are no points of the curve, so that nobody has a secret for them. A bump, a last seed of one
byte, is counted down from 255 until the digest is off the curve.
-/

namespace OfflineTx

namespace Derivation

def marker : Bytes := ascii "ProgramDerivedAddress"

def checkSeeds (seeds : List Bytes) : Except Fault Unit :=
  if seeds.length > maxSeeds then .error (.tooManySeeds seeds.length)
  else match seeds.findIdx? (fun seed => seed.length > maxSeedLength) with
    | some i => .error (.seedTooLong i (seeds.getD i []).length)
    | none => .ok ()

def digest (seeds : List Bytes) (program : Address) : Address :=
  Sha256.digest (seeds.flatten ++ program.bytes ++ marker)

/-- The derived address, unless it is on the curve. -/
def offCurve? (seeds : List Bytes) (program : Address) : Option Address :=
  let address := digest seeds program
  if Curve.isPoint address then none else some address

def create (seeds : List Bytes) (bump : UInt8) (program : Address) : Except Fault Address :=
  match checkSeeds seeds with
  | .error f => .error f
  | .ok () =>
    match offCurve? (seeds ++ [[bump]]) program with
    | some address => .ok address
    | none => .error (.onCurve (some bump))

def createWithSeeds (seeds : List Bytes) (program : Address) : Except Fault Address :=
  match checkSeeds seeds with
  | .error f => .error f
  | .ok () =>
    match offCurve? seeds program with
    | some address => .ok address
    | none => .error (.onCurve none)

/-- The first address off the curve among those with a bump below `n`, from the largest bump
down. -/
def searchBelow (seeds : List Bytes) (program : Address) : Nat → Option (Address × UInt8)
  | 0 => none
  | n + 1 =>
    match offCurve? (seeds ++ [[n.toUInt8]]) program with
    | some address => some (address, n.toUInt8)
    | none => searchBelow seeds program n

def find (seeds : List Bytes) (program : Address) : Except Fault (Address × UInt8) :=
  match checkSeeds seeds with
  | .error f => .error f
  | .ok () =>
    match searchBelow seeds program 256 with
    | some found => .ok found
    | none => .error (.bumpsExhausted program)

/-- The address that holds a wallet's tokens of one mint, and its bump. -/
def findAssociatedToken (wallet mint : Address) : Except Fault (Address × UInt8) :=
  find [wallet.bytes, Program.token.address.bytes, mint.bytes] Program.associatedToken.address

/-- What the log says of a search that succeeded. -/
def foundEntry (program : Address) (found : Address × UInt8) : Log.Entry :=
  Log.note "found program address" [("program_id", .base58 program), ("address", .base58 found.1),
    ("bump", .number found.2.toNat)]

end Derivation

/-- The address and the bump of the last derivation that succeeded. -/
structure DerivedAddress where
  address : Address
  bump : UInt8
deriving DecidableEq

namespace DerivedAddress

def initial : DerivedAddress where
  address := .zero 32
  bump := 0

inductive Call
  | find
  | create (bump : UInt8)
  | createWithSeeds
deriving DecidableEq

def answer (call : Call) (seeds : List Bytes) (program : Address) :
    Except Fault DerivedAddress :=
  match call with
  | .find => (Derivation.find seeds program).map fun (a, b) => { address := a, bump := b }
  | .create bump =>
    (Derivation.create seeds bump program).map fun a => { address := a, bump := bump }
  | .createWithSeeds =>
    (Derivation.createWithSeeds seeds program).map fun a => { address := a, bump := 0 }

/-- A call that fails leaves address and bump as they are. -/
def run (call : Call) (seeds : List Bytes) (program : Address) (a : Tracked DerivedAddress) :
    Except Fault DerivedAddress × Tracked DerivedAddress :=
  let reply := Method.run a do
    .reset
    let found ← .check (answer call seeds program)
    .modify fun a => { a with value := found }
    pure found
  (reply.answer, reply.after)

theorem run_eq (call : Call) (seeds : List Bytes) (program : Address) (a : Tracked DerivedAddress) :
    run call seeds program a =
      match answer call seeds program with
      | .error f => (.error f, { a with errors := .ofFault f })
      | .ok found => (.ok found, .fresh found) := by
  unfold run
  rcases answer call seeds program with f | found <;> rfl

/-- Only a search is noted. -/
def entries (call : Call) (program : Address) : Except Fault DerivedAddress → List Log.Entry
  | .ok found =>
    if call = .find then [Derivation.foundEntry program (found.address, found.bump)] else []
  | .error _ => []

end DerivedAddress

end OfflineTx
