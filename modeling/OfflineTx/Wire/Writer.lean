import OfflineTx.Bytes.Fixed
import OfflineTx.Wire.CompactLength

/-!
# Writing fields

The wire form of a row of fields is the row of their wire forms. Numbers are written lowest byte
first, negative ones in two's complement.
-/

namespace OfflineTx.Wire

inductive Field
  | byte (v : UInt8)
  | word16 (v : UInt16)
  | word32 (v : UInt32)
  | word64 (v : UInt64)
  | int32 (v : Int32)
  | int64 (v : Int64)
  | address (v : FixedBytes 32)
  | signature (v : Signature)
  | length (v : UInt16)
  | bytes (v : Bytes)
deriving DecidableEq

def Field.wire : Field → Bytes
  | byte v => [v]
  | word16 v => Bytes.ofNatLE 2 v.toNat
  | word32 v => Bytes.ofNatLE 4 v.toNat
  | word64 v => Bytes.ofNatLE 8 v.toNat
  | int32 v => Bytes.ofNatLE 4 v.toUInt32.toNat
  | int64 v => Bytes.ofNatLE 8 v.toUInt64.toNat
  | address v => v.bytes
  | signature v => v.bytes
  | length v => CompactLength.encode v
  | bytes v => v

/-- The bytes written so far. -/
structure Writer where
  written : Bytes := []

namespace Writer

def add (w : Writer) (f : Field) : Writer where
  written := w.written ++ f.wire

def addAll (w : Writer) (fs : List Field) : Writer :=
  fs.foldl add w

/-- The bytes, and the writer without them. -/
def detach (w : Writer) : Bytes × Writer :=
  (w.written, {})

theorem addAll_written (fs : List Field) (w : Writer) :
    (w.addAll fs).written = w.written ++ fs.flatMap Field.wire := by
  induction fs generalizing w with
  | nil => simp [addAll]
  | cons f fs ih =>
    have := ih (w.add f)
    simp only [addAll, List.foldl_cons] at this ⊢
    rw [this, add, List.flatMap_cons, List.append_assoc]

end Writer

/-- A list of bytes behind its length. -/
def counted (bs : Bytes) : Bytes :=
  CompactLength.encode (UInt16.ofNat bs.length) ++ bs

end OfflineTx.Wire
