import Mathlib.Tactic.SplitIfs
import OfflineTx.Message.Size
import OfflineTx.Proofs.MessageWire

/-!
# The size of a transaction in closed form

The bytes of a transaction are counted from the lengths of its lists alone (`packetSize`). A
transaction fits a packet exactly if this count does (`sizeInPacket_eq_ok_iff`): a list too long for
its length to be written is also too long for a packet.
-/

namespace OfflineTx

open Wire

/-- The number of bytes that a length takes. -/
def compactSize (n : Nat) : Nat :=
  if n < 128 then 1 else if n < 16384 then 2 else 3

theorem size_ofNat {n : Nat} (h : n ≤ 0xffff) :
    CompactLength.size (UInt16.ofNat n) = compactSize n := by
  have hn : (UInt16.ofNat n).toNat = n := by
    rw [UInt16.toNat_ofNat']
    omega
  rw [CompactLength.size, hn, compactSize]

theorem compactSize_mono {m n : Nat} (h : m ≤ n) : compactSize m ≤ compactSize n := by
  unfold compactSize
  split_ifs <;> omega

/-- The number of bytes of `n` bytes behind their length. -/
def countedSize (n : Nat) : Nat :=
  compactSize n + n

theorem length_counted {bs : Bytes} (h : bs.length ≤ 0xffff) :
    (counted bs).length = countedSize bs.length := by
  rw [counted, List.length_append, CompactLength.length_encode, size_ofNat h, countedSize]

def CompiledInstruction.wireSize (ix : CompiledInstruction) : Nat :=
  1 + countedSize ix.accounts.length + countedSize ix.data.length

def Lookup.wireSize (l : Lookup) : Nat :=
  32 + countedSize l.writable.length + countedSize l.readonly.length

theorem CompiledInstruction.Countable.length_wire {ix : CompiledInstruction} (h : ix.Countable) :
    ix.wire.length = ix.wireSize := by
  rw [wire, List.length_cons, List.length_append, length_counted h.accounts, length_counted h.data,
    wireSize]
  omega

theorem Lookup.Countable.length_wire {l : Lookup} (h : l.Countable) :
    l.wire.length = l.wireSize := by
  rw [wire, List.length_append, List.length_append, FixedBytes.length_bytes,
    length_counted h.writable, length_counted h.readonly, wireSize]
  omega

namespace Message

/-- The number of bytes of the version byte and the lookups, which only version 0 has. -/
def extensionSize (m : Message) : Nat :=
  match m.version with
  | .legacy => 0
  | .v0 => 1 + (compactSize m.lookups.length + (m.lookups.map Lookup.wireSize).sum)

def wireSize (m : Message) : Nat :=
  3 + (compactSize m.keys.length + 32 * m.keys.length) + 32 +
    (compactSize m.instructions.length + (m.instructions.map CompiledInstruction.wireSize).sum) +
    m.extensionSize

/-- The number of bytes of a transaction with this message. -/
def packetSize (m : Message) : Nat :=
  compactSize m.required + 64 * m.required + m.wireSize

variable {m : Message}

theorem length_listWire {α : Type} {wire : α → Bytes} {size : α → Nat} {xs : List α}
    (hlen : xs.length ≤ 0xffff) (h : ∀ x ∈ xs, (wire x).length = size x) :
    (listWire wire xs).length = compactSize xs.length + (xs.map size).sum := by
  rw [listWire, List.length_append, CompactLength.length_encode, size_ofNat hlen,
    List.length_flatMap, List.map_congr_left h]

theorem length_fixedList {n : Nat} {xs : List (FixedBytes n)} (hlen : xs.length ≤ 0xffff) :
    (listWire FixedBytes.bytes xs).length = compactSize xs.length + n * xs.length := by
  rw [length_listWire hlen fun a _ => a.length_bytes, List.map_const', List.sum_replicate_nat,
    Nat.mul_comm]

theorem length_wire (h : m.Countable) : m.wire.length = m.wireSize := by
  have hkeys := length_fixedList h.keys
  have hixs : (listWire CompiledInstruction.wire m.instructions).length = _ :=
    length_listWire h.instructions fun ix hix => (h.instruction ix hix).length_wire
  have hext : m.version.wire.length + m.lookupsWire.length = m.extensionSize := by
    have hl := h.lookups
    unfold lookupsWire extensionSize
    rcases hv : m.version with _ | _
    · rfl
    · obtain ⟨hn, hl⟩ := hl hv
      simp only [length_listWire hn fun l hmem => (hl l hmem).length_wire]
      rfl
  simp only [wire, List.length_append, hkeys, hixs, FixedBytes.length_bytes, Header.wire,
    List.length_cons, List.length_nil, wireSize]
  omega

theorem size_le_sum {α : Type} (size : α → Nat) {x : α} :
    ∀ {xs : List α}, x ∈ xs → size x ≤ (xs.map size).sum
  | y :: ys, h => by
    rw [List.map_cons, List.sum_cons]
    rcases List.mem_cons.1 h with rfl | h
    · exact Nat.le_add_right _ _
    · exact Nat.le_trans (size_le_sum size h) (Nat.le_add_left _ _)

theorem length_le_sum {α : Type} (size : α → Nat) (hpos : ∀ x, 1 ≤ size x) :
    ∀ xs : List α, xs.length ≤ (xs.map size).sum
  | [] => Nat.le_refl 0
  | x :: xs => by
    have hx := hpos x
    have ih := length_le_sum size hpos xs
    rw [List.map_cons, List.sum_cons, List.length_cons]
    omega

/-- A transaction that fits a packet has no list too long for its length to be written. -/
theorem countable_of_packetSize (h : m.packetSize ≤ maxPacket) : m.Countable := by
  unfold packetSize wireSize maxPacket at h
  have hixs := length_le_sum CompiledInstruction.wireSize
    (fun ix => by unfold CompiledInstruction.wireSize; omega) m.instructions
  refine ⟨by omega, by omega, fun ix hix => ?_, fun hv => ⟨?_, fun l hl => ?_⟩⟩
  · have hle := size_le_sum CompiledInstruction.wireSize hix
    simp only [CompiledInstruction.wireSize, countedSize] at hle h
    exact ⟨by omega, by omega⟩
  · have hls := length_le_sum Lookup.wireSize
      (fun l => by unfold Lookup.wireSize; omega) m.lookups
    simp only [extensionSize, hv] at h
    omega
  · have hle := size_le_sum Lookup.wireSize hl
    simp only [extensionSize, hv, Lookup.wireSize, countedSize] at hle h
    exact ⟨by omega, by omega⟩

theorem transactionSize_eq (h : m.Countable) : m.transactionSize = .ok m.packetSize := by
  have hreq : CompactLength.size m.header.required.toUInt16 = compactSize m.required := by
    rw [CompactLength.size, UInt8.toNat_toUInt16, compactSize, required]
  rw [transactionSize, encode_eq_ok_iff.2 ⟨h, rfl⟩]
  simp only [sizeAround, length_wire h, hreq, packetSize, Nat.mul_comm m.required]

theorem sizeInPacket_eq_ok_iff {n : Nat} :
    m.sizeInPacket = .ok n ↔ m.packetSize ≤ maxPacket ∧ n = m.packetSize := by
  unfold sizeInPacket
  by_cases h : m.Countable
  · rw [overlong?_eq_none_iff.2 h, transactionSize_eq h]
    by_cases hle : maxPacket < m.packetSize
    · simp only [if_pos hle, reduceCtorEq, false_iff]
      omega
    · simp only [if_neg hle, Except.ok.injEq]
      omega
  · have hno : ¬m.packetSize ≤ maxPacket := fun hle => h (countable_of_packetSize hle)
    rcases hl : m.overlong? with _ | l
    · exact absurd (overlong?_eq_none_iff.1 hl) h
    · simp only [reduceCtorEq, hno, false_and]

end Message

end OfflineTx
