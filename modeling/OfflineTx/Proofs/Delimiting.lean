import OfflineTx.Proofs.RoundTrip

/-!
# Messages inside a buffer

A reader of a buffer sees what follows its position and nothing of what stands before it. Where
reading gives exactly the wire forms (`Reads`), a value is read from its wire form wherever that
stands (`Reads.anywhere`), and what was read is the wire form between the two positions
(`Reads.between`). So a message needs no mark at either end (`delimits_itself`): neither its version
byte nor the room that its lists ask for depend on what else is in the buffer.
-/

namespace OfflineTx

namespace Wire.Reader

/-- The reader of a buffer at a position in it. -/
def within (buffer : Bytes) (position : Nat) : Reader :=
  (ofBytes buffer).advance position

variable {buffer bs : Bytes} {k : Nat} {r : Reader}

@[simp] theorem offset_within : (within buffer k).offset = k :=
  Nat.zero_add k

@[simp] theorem rest_within : (within buffer k).rest = buffer.drop k := rfl

theorem passes_within (before bs after : Bytes) :
    (within (before ++ bs ++ after) before.length).Passes bs
      (within (before ++ bs ++ after) (before.length + bs.length)) := by
  refine ⟨?_, by simp⟩
  rw [rest_within, rest_within, ← List.length_append, List.drop_left, List.append_assoc,
    List.drop_left]

/-- What a reader of a buffer passes is what stands between its two positions. -/
theorem Passes.between (h : (within buffer k).Passes bs r) :
    r = within buffer (k + bs.length) ∧ buffer.extract k (k + bs.length) = bs := by
  obtain ⟨offset, rest⟩ := r
  obtain ⟨hrest, hoffset⟩ := h
  simp only [rest_within, offset_within] at hrest hoffset
  refine ⟨?_, ?_⟩
  · have hdrop : buffer.drop (k + bs.length) = rest := by
      rw [← List.drop_drop, hrest, List.drop_left]
    rw [within, advance, ofBytes, hoffset, hdrop, Nat.zero_add]
  · rw [List.extract_eq_take_drop, Nat.add_sub_cancel_left, hrest, List.take_left]

variable {α : Type} {read : Reader → Except Fault (α × Reader)} {wire : α → Bytes}
  {fit : α → Prop} {a : α}

/-- The value is read from the bytes wherever they stand in a buffer, and the reader then stands
right behind them. -/
def ReadAnywhere (read : Reader → Except Fault (α × Reader)) (a : α) (bs : Bytes) : Prop :=
  ∀ before after : Bytes, read (within (before ++ bs ++ after) before.length) =
    .ok (a, within (before ++ bs ++ after) (before.length + bs.length))

theorem Reads.anywhere (h : Reads read wire fit) (ha : fit a) : ReadAnywhere read a (wire a) :=
  fun before after => (h _ _ _).2 ⟨ha, passes_within before (wire a) after⟩

theorem Reads.between (h : Reads read wire fit) (hr : read (within buffer k) = .ok (a, r)) :
    fit a ∧ r = within buffer (k + (wire a).length) ∧
      buffer.extract k (k + (wire a).length) = wire a := by
  obtain ⟨ha, hp⟩ := (h _ _ _).1 hr
  exact ⟨ha, hp.between⟩

end Wire.Reader

namespace Message

open Wire.Reader

theorem length_wire_pos (m : Message) : 0 < m.wire.length := by
  simp only [wire, Header.wire, List.length_append, List.length_cons]
  omega

/-- A message that was read from a buffer is encoded to the bytes between the two positions, and is
read from these bytes whatever else is in the buffer. A consistent message whose lists can be
counted is read wherever its encoding stands. -/
theorem delimits_itself :
    (∀ (buffer : Bytes) (k : Nat) (m : Message) (r : Wire.Reader),
      decode (within buffer k) = .ok (m, r) → ∃ k', k ≤ k' ∧ k' ≤ buffer.length ∧
        r = within buffer k' ∧ m.encode = .ok (buffer.extract k k') ∧
        ReadAnywhere decode m (buffer.extract k k')) ∧
    ∀ m : Message, m.Consistent → m.Countable →
      ∃ bs, m.encode = .ok bs ∧ ReadAnywhere decode m bs := by
  refine ⟨fun buffer k m r hread => ?_, fun m hcons hcount => ?_⟩
  · obtain ⟨hfit, rfl, hbetween⟩ := decode_reads.between hread
    have hpos := m.length_wire_pos
    have hlen := congrArg List.length hbetween
    rw [List.extract_eq_take_drop, List.length_take, List.length_drop] at hlen
    refine ⟨k + m.wire.length, by omega, by omega, rfl, ?_⟩
    rw [hbetween]
    exact ⟨encode_eq_ok_iff.2 ⟨hfit.2, rfl⟩, decode_reads.anywhere hfit⟩
  · exact ⟨m.wire, encode_eq_ok_iff.2 ⟨hcount, rfl⟩, decode_reads.anywhere ⟨hcons, hcount⟩⟩

/-- Bytes around a message of version 0 that could be a version byte and an empty list. -/
def surrounded : Bytes :=
  [7, 0x80] ++ Transaction.loading.message.wire ++ [0, 9]

set_option maxRecDepth 4000 in
theorem delimits_itself_surrounded :
    decode (within surrounded 2) = .ok (Transaction.loading.message, within surrounded 149) ∧
      ReadAnywhere decode Transaction.loading.message (surrounded.extract 2 149) := by
  have hread : decode (within surrounded 2) =
      .ok (Transaction.loading.message, within surrounded 149) := rfl
  obtain ⟨k', -, -, hend, -, hany⟩ := delimits_itself.1 surrounded 2 _ _ hread
  obtain rfl : 149 = k' := by simpa using congrArg offset hend
  exact ⟨hread, hany⟩

end Message

end OfflineTx
