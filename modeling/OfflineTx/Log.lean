import OfflineTx.Text.Base58
import OfflineTx.Text.Timestamp

/-!
# Log lines

An entry has a level, a topic and named values. Only entries whose level is in the mask of the
chosen level are written.
-/

namespace OfflineTx.Log

abbrev Level := Int32

def debug : Level := 8
def info : Level := 4
def warning : Level := 2
def error : Level := 1

/-- The name of a level. Other levels have none. -/
def levelName (level : Level) : Bytes :=
  if level = debug then ascii "DBG"
  else if level = info then ascii "INF"
  else if level = warning then ascii "WRN"
  else if level = error then ascii "ERR"
  else []

/-- The least mask of low bits, but at least one bit, that is not below the chosen level. -/
def maskFor (level : Level) : Level :=
  if level ≤ 1 then 1 else Int32.ofNat (Nat.pow 2 (level.toUInt32.toNat.log2 + 1) - 1)

/-- Whether a level shares a bit with the mask. -/
def shows (mask level : Level) : Bool :=
  level &&& mask != 0

inductive Value
  | text (v : Bytes)
  | base58 (v : FixedBytes 32)
  | number (v : Int)
deriving DecidableEq

def Value.render : Value → Bytes
  | text v => v
  | base58 v => v.toBase58
  | number v => Decimal.ofInt v

structure Entry where
  level : Level
  topic : Bytes
  fields : List (Bytes × Value)
deriving DecidableEq

def topicWidth : Nat := 40

/-- An entry behind the texts of a time and a process. The topic is cut or filled up to its
width. -/
def Entry.render (time process : Bytes) (e : Entry) : Bytes :=
  let topic := e.topic.take topicWidth
  let blanks := List.replicate (topicWidth - topic.length) 32
  let fields := e.fields.map fun f => f.1 ++ ascii "=" ++ f.2.render
  ascii "[" ++ time ++ ascii " " ++ process ++ ascii " " ++ levelName e.level ++ ascii " " ++
    topic ++ blanks ++ ascii "] " ++ [(44 : UInt8)].intercalate fields

/-- An entry as a line, written at a time in nanoseconds since 1970 by a process. -/
def Entry.line (nanos process : Int) (e : Entry) : Bytes :=
  e.render (Timestamp.render nanos) (Decimal.ofInt process)

/-- An entry of the library itself. -/
def note (topic : String) (fields : List (String × Value)) : Entry where
  level := debug
  topic := ascii topic
  fields := fields.map fun f => (ascii f.1, f.2)

end OfflineTx.Log
