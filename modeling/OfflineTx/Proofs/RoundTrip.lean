import OfflineTx.Proofs.MessageWire
import OfflineTx.Transaction.Codec

/-!
# Transactions and their bytes

The bytes that decode to a transaction are those it is encoded to, if its message is consistent, and
otherwise there are none (`decode_eq_ok_iff`). So decoding undoes encoding exactly on consistent
transactions, and no transaction has two wire forms.
-/

namespace OfflineTx.Transaction

open Wire Wire.Reader

variable {t : Transaction} {bs : Bytes}

theorem checkSlots_eq_ok_iff {required slots : Nat} :
    checkSlots required slots = .ok () ↔ slots = required := by
  unfold checkSlots
  split <;> simp_all

theorem slotsMatch_iff : t.slotsMatch = true ↔ t.signatures.length = t.message.required := by
  simp [slotsMatch]

theorem checkEnd_eq_ok_iff {r : Reader} : checkEnd r = .ok () ↔ r.rest = [] := by
  unfold checkEnd atEnd
  split <;> simp_all

theorem signatures_reads :
    Reads readSignatures signaturesWire (fun signatures => signatures.length ≤ 0xffff) :=
  Message.fixedList_reads _ _ (by decide) (by decide)

theorem encode_eq_ok_iff :
    t.encode = .ok bs ↔ t.signatures.length = t.message.required ∧ t.message.Countable ∧
      bs = signaturesWire t.signatures ++ t.message.wire := by
  simp only [encode, bind_eq_ok_iff, Message.encode_eq_ok_iff, pure, Except.pure,
    Except.ok.injEq]
  constructor
  · rintro ⟨⟨⟩, hs, m, ⟨hc, rfl⟩, rfl⟩
    exact ⟨checkSlots_eq_ok_iff.1 hs, hc, rfl⟩
  · rintro ⟨hs, hc, rfl⟩
    exact ⟨(), checkSlots_eq_ok_iff.2 hs, _, ⟨hc, rfl⟩, rfl⟩

/-- Bytes decode to a transaction exactly if its message is consistent and they are what it is
encoded to. -/
theorem decode_eq_ok_iff : decode bs = .ok t ↔ t.message.Consistent ∧ t.encode = .ok bs := by
  simp only [decode, bind_eq_ok_iff, Prod.exists, encode_eq_ok_iff, signatures_reads _ _ _,
    Message.decode_reads _ _ _, pure, Except.pure, Except.ok.injEq]
  constructor
  · rintro ⟨sigs, r, ⟨-, hs⟩, m, r', ⟨⟨hcons, hcount⟩, hm⟩, ⟨⟩, hslots, ⟨⟩, hend, rfl⟩
    have hrest := (passes_append.2 ⟨r, hs, hm⟩).rest_eq
    rw [checkEnd_eq_ok_iff.1 hend, List.append_nil] at hrest
    exact ⟨hcons, checkSlots_eq_ok_iff.1 hslots, hcount, hrest⟩
  · rintro ⟨hcons, hslots, hcount, rfl⟩
    have hall : (ofBytes (signaturesWire t.signatures ++ t.message.wire)).Passes
        (signaturesWire t.signatures ++ t.message.wire)
        ⟨(signaturesWire t.signatures ++ t.message.wire).length, []⟩ :=
      ⟨(List.append_nil _).symm, (Nat.zero_add _).symm⟩
    obtain ⟨r, hs, hm⟩ := passes_append.1 hall
    exact ⟨t.signatures, r, ⟨by have := t.message.required_lt; omega, hs⟩, t.message, _,
      ⟨⟨hcons, hcount⟩, hm⟩, (), checkSlots_eq_ok_iff.2 hslots, (), checkEnd_eq_ok_iff.2 rfl, rfl⟩

/-- Decoding undoes encoding exactly on transactions whose message is consistent. -/
theorem decode_encode_iff_consistent (h : t.encode = .ok bs) :
    decode bs = .ok t ↔ t.message.Consistent := by
  rw [decode_eq_ok_iff]
  exact and_iff_left h

/-- One signer calls a program that its own table does not hold, but a lookup table loads. -/
def loading : Transaction where
  signatures := [.zero 64]
  message :=
    { version := .v0
      header := { required := 1 }
      keys := [.zero 32, .padded 32 [1]]
      instructions := [{ program := 3, accounts := [0, 2, 1], data := [7] }]
      lookups := [{ table := .padded 32 [2], writable := [9], readonly := [4, 5] }] }

theorem decode_encode_loading :
    loading.encode = .ok (signaturesWire loading.signatures ++ loading.message.wire) ∧
      (decode (signaturesWire loading.signatures ++ loading.message.wire) = .ok loading ↔
        loading.message.Consistent) :=
  ⟨rfl, decode_encode_iff_consistent rfl⟩

/-- Bytes that decode to a transaction are its only wire form, and the transaction has a slot for
each signature that its message requires, and a consistent message. -/
theorem canonical_of_decode (h : decode bs = .ok t) :
    t.slotsMatch = true ∧ t.message.Consistent ∧ t.encode = .ok bs ∧
      ∀ bs', decode bs' = .ok t → bs' = bs := by
  obtain ⟨hcons, henc⟩ := decode_eq_ok_iff.1 h
  refine ⟨slotsMatch_iff.2 (encode_eq_ok_iff.1 henc).1, hcons, henc, fun bs' h' => ?_⟩
  obtain ⟨-, henc'⟩ := decode_eq_ok_iff.1 h'
  rw [henc, Except.ok.injEq] at henc'
  exact henc'.symm

theorem canonical_loading :
    decode (signaturesWire loading.signatures ++ loading.message.wire) = .ok loading ∧
      loading.slotsMatch = true ∧ loading.message.Consistent ∧
      loading.encode = .ok (signaturesWire loading.signatures ++ loading.message.wire) ∧
      ∀ bs, decode bs = .ok loading →
        bs = signaturesWire loading.signatures ++ loading.message.wire :=
  ⟨rfl, canonical_of_decode rfl⟩

end OfflineTx.Transaction
