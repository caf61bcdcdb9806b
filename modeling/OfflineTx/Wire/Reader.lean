import OfflineTx.Fault
import OfflineTx.Wire.CompactLength

/-!
# Reading fields

A reader stands at an offset of its input and sees the bytes that follow. A read that needs more
bytes than follow is a fault, which names the field by the text `what`, and no reader comes out.
-/

namespace OfflineTx.Wire

structure Reader where
  offset : Nat
  rest : Bytes
deriving DecidableEq

namespace Reader

def ofBytes (bs : Bytes) : Reader where
  offset := 0
  rest := bs

def atEnd (r : Reader) : Bool :=
  r.rest.isEmpty

/-- Stands `n` bytes further on. -/
def advance (r : Reader) (n : Nat) : Reader where
  offset := r.offset + n
  rest := r.rest.drop n

def truncation (r : Reader) (what : Bytes) (need : Nat) : Fault :=
  .truncatedField what r.offset need r.rest.length

/-- Whether `n` bytes follow. -/
def need (n : Nat) (what : Bytes) (r : Reader) : Except Fault Unit :=
  if Bytes.fits n r.rest then .ok () else .error (r.truncation what n)

/-- Whether `n` elements of `size` bytes follow. The product is taken modulo `2 ^ 64`. -/
def needElements (n size : UInt64) (what : Bytes) (r : Reader) : Except Fault Unit :=
  r.need (n * size).toNat what

/-- The next byte, without passing it. -/
def peek (what : Bytes) (r : Reader) : Except Fault UInt8 :=
  match r.rest with
  | [] => .error (r.truncation what 1)
  | b :: _ => .ok b

def byte (what : Bytes) (r : Reader) : Except Fault (UInt8 × Reader) :=
  match r.rest with
  | [] => .error (r.truncation what 1)
  | b :: _ => .ok (b, r.advance 1)

def bytes (n : Nat) (what : Bytes) (r : Reader) : Except Fault (Bytes × Reader) :=
  if Bytes.fits n r.rest then .ok (r.rest.take n, r.advance n) else .error (r.truncation what n)

def fixed (n : Nat) (what : Bytes) (r : Reader) : Except Fault (FixedBytes n × Reader) :=
  if h : Bytes.fits n r.rest then
    .ok (⟨r.rest.take n, Bytes.length_take_of_fits h⟩, r.advance n)
  else .error (r.truncation what n)

def length (what : Bytes) (r : Reader) : Except Fault (UInt16 × Reader) :=
  match CompactLength.decode r.rest with
  | .ok (v, used) => .ok (v, r.advance used)
  | .error .truncated => .error (.truncatedLength what r.offset)
  | .error .malformed => .error (.malformedLength what r.offset)

/-- A list of bytes behind its length. -/
def counted (what : Bytes) (r : Reader) : Except Fault (Bytes × Reader) :=
  match r.length what with
  | .error f => .error f
  | .ok (n, r) => r.bytes n.toNat what

/-- Reads `n` elements after those in `done`, which stand last first. -/
def repeatOnto {α : Type} (read : Reader → Except Fault (α × Reader)) :
    Nat → List α → Reader → Except Fault (List α × Reader)
  | 0, done, r => .ok (done.reverse, r)
  | n + 1, done, r =>
    match read r with
    | .error f => .error f
    | .ok (a, r) => repeatOnto read n (a :: done) r

/-- A list of elements behind its length. Before any element is read, as many bytes have to
follow as elements of the least size take. -/
def elements {α : Type} (what : Bytes) (leastSize : UInt64)
    (read : Reader → Except Fault (α × Reader)) (r : Reader) :
    Except Fault (List α × Reader) :=
  match r.length what with
  | .error f => .error f
  | .ok (n, r) =>
    match r.needElements n.toUInt64 leastSize what with
    | .error f => .error f
    | .ok () => repeatOnto read n.toNat [] r

end Reader

end OfflineTx.Wire
