import OfflineTx.Method
import OfflineTx.Wire.Reader

/-!
# Cursors

A cursor makes reads one after the other. A read that fails leaves its position, and the fault
stays reported whatever later reads answer.
-/

namespace OfflineTx

namespace Wire

abbrev Cursor := Tracked Reader

/-- What a read asks for. -/
inductive Request
  | peek
  | byte
  | address
  | signature
  | length
  | bytes (n : UInt64)
  | elements (n size : UInt64)
deriving DecidableEq

/-- What a read gives. A check of room for elements gives nothing. -/
inductive Answer
  | number (v : Nat)
  | bytes (v : Bytes)
  | nothing
deriving DecidableEq

def Reader.answer (request : Request) (what : Bytes) (r : Reader) :
    Except Fault (Answer × Reader) :=
  match request with
  | .peek => (r.peek what).map fun b => (.number b.toNat, r)
  | .byte => (r.byte what).map fun (b, r) => (.number b.toNat, r)
  | .address => (r.fixed 32 what).map fun (a, r) => (.bytes a.bytes, r)
  | .signature => (r.fixed 64 what).map fun (s, r) => (.bytes s.bytes, r)
  | .length => (r.length what).map fun (n, r) => (.number n.toNat, r)
  | .bytes n => (r.bytes n.toNat what).map fun (bs, r) => (.bytes bs, r)
  | .elements n size => (r.needElements n size what).map fun _ => (.nothing, r)

namespace Cursor

variable {α : Type}

def ofBytes (bs : Bytes) : Cursor :=
  .fresh (.ofBytes bs)

/-- Reads from where the cursor stands, and stands behind what was read. -/
def take (read : Reader → Except Fault (α × Reader)) (c : Cursor) : Reply Cursor α :=
  Method.run c do
    let (a, r) ← .check (read c.value)
    .modify fun c => { c with value := r }
    pure a

def read (request : Request) (what : Bytes) (c : Cursor) : Except Fault Answer × Cursor :=
  let reply := c.take fun r => r.answer request what
  (reply.answer, reply.after)

theorem take_eq (read : Reader → Except Fault (α × Reader)) (c : Cursor) : c.take read =
    match read c.value with
    | .error f => { answer := .error f, after := { c with errors := .ofFault f } }
    | .ok (a, r) => { answer := .ok a, after := { c with value := r } } := by
  unfold take
  rcases read c.value with f | ⟨a, r⟩ <;> rfl

theorem read_eq (request : Request) (what : Bytes) (c : Cursor) : c.read request what =
    match c.value.answer request what with
    | .error f => (.error f, { c with errors := .ofFault f })
    | .ok (a, r) => (.ok a, { c with value := r }) := by
  rw [read, take_eq]
  rcases c.value.answer request what with f | ⟨a, r⟩ <;> rfl

end Cursor

end Wire

/-- Reads with the cursor beside. -/
def Method.reading {σ α : Type} [Reporter σ] (read : Wire.Reader → Except Fault (α × Wire.Reader)) :
    Method (σ × Wire.Cursor) α :=
  .callOn .second (Wire.Cursor.take read)

end OfflineTx
