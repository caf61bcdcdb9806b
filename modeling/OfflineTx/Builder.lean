import OfflineTx.Draft
import OfflineTx.Message.Compile

/-!
# Building transactions

A builder collects a fee payer, a recent block hash and instructions, and builds drafts of them.
-/

namespace OfflineTx

open Method

/-- A compiler that reports its calls. -/
abbrev TrackedCompiler := Tracked Compiler

namespace TrackedCompiler

def empty : TrackedCompiler := .fresh .empty

def versionNumber : Version → Nat
  | .legacy => 0
  | .v0 => 1

def compiledEntry (feePayer : Address) (m : Message) (size : Nat) : Log.Entry :=
  Log.note "compiled message" [("fee_payer", .base58 feePayer),
    ("version", .number (versionNumber m.version)), ("num_accounts", .number m.keys.length),
    ("num_signers", .number m.required), ("num_instructions", .number m.instructions.length),
    ("size", .number size)]

/-- The message is an object of its own. -/
def compileNew (c : TrackedCompiler) (version : Version) (feePayer : Address) (recentHash : Hash)
    (ixs : List Instruction) : Reply TrackedCompiler DraftMessage := run c do
  reset
  modify fun c => { c with value := c.value.collect feePayer ixs }
  let collected := (← get).value
  check collected.checkCounts
  modify fun c => { c with value := c.value.layOut }
  let (new, size) ← DraftMessage.inPacket
    (.fresh (collected.message version feePayer recentHash ixs))
  note [compiledEntry feePayer new.value size]
  pure new

def compile (c : TrackedCompiler) (version : Version) (feePayer : Address) (recentHash : Hash)
    (ixs : List Instruction) : Reply TrackedCompiler Message := run c do
  let new ← call fun c => c.compileNew version feePayer recentHash ixs
  pure new.value

/-- The message that is given is replaced by what is compiled. -/
def compileInto (c : TrackedCompiler) (m : DraftMessage) (version : Version) (feePayer : Address)
    (recentHash : Hash) (ixs : List Instruction) :
    Reply (TrackedCompiler × DraftMessage) Unit := run (c, m) do
  let new ← callOn .first fun c => c.compileNew version feePayer recentHash ixs
  modify fun (c, _) => (c, new)

end TrackedCompiler

structure Builder where
  feePayer : Option Address := none
  recentHash : Option Hash := none
  instructions : List Instruction := []
  compiler : TrackedCompiler := .empty
  errors : ErrorState := .clear

namespace Builder

def empty : Builder := {}

instance : Inhabited Builder := ⟨empty⟩

def setFeePayer (b : Builder) (a : Address) : Builder :=
  { b with feePayer := some a }

def setRecentHash (b : Builder) (h : Hash) : Builder :=
  { b with recentHash := some h }

def add (b : Builder) (ixs : List Instruction) : Builder :=
  { b with instructions := b.instructions ++ ixs }

/-- Forgets all that was collected. -/
def reset (b : Builder) : Builder :=
  { compiler := b.compiler }

/-- What a message is compiled from, if nothing is missing. -/
def inputs (b : Builder) : Except Fault (Address × Hash × List Instruction) :=
  match b.feePayer, b.recentHash with
  | none, _ => .error .feePayerUnset
  | some _, none => .error .recentHashUnset
  | some feePayer, some recentHash =>
    if b.instructions.isEmpty then .error .noInstructions
    else .ok (feePayer, recentHash, b.instructions)

def builtEntry (feePayer : Address) (recentHash : Hash) (ixs : List Instruction) (m : Message) :
    Log.Entry :=
  Log.note "built transaction" [("fee_payer", .base58 feePayer),
    ("recent_hash", .base58 recentHash), ("num_instructions", .number ixs.length),
    ("num_signatures", .number m.required)]

instance : Reporter Builder where
  errors := Builder.errors
  report errors b := { b with errors }

/-- The compiler together with the message of the draft. -/
def compilerAndMessage : Part (Builder × Draft) (TrackedCompiler × DraftMessage) where
  get s := (s.1.compiler, s.2.message)
  set t s := ({ s.1 with compiler := t.1 }, { s.2 with message := t.2 })

/-- Builds the draft anew, with zero slots. A fault leaves the draft as it is. -/
def build (b : Builder) (version : Version) (d : Draft) : Reply (Builder × Draft) Unit :=
  run (b, d) do
    Method.reset
    let (feePayer, recentHash, ixs) ← check b.inputs
    callOn compilerAndMessage fun (c, m) => c.compileInto m version feePayer recentHash ixs
    modify fun (b, d) => (b, { d.resetSlots with errors := .clear })
    let (_, d) ← get
    note [builtEntry feePayer recentHash ixs d.content.message]

end Builder

end OfflineTx
