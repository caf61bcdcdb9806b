import OfflineTx.Proofs.Cursor

/-!
# Room for elements

Elements of one size can all be read if as many bytes follow as their number times their size
(`allows_iff`). A cursor that is asked beforehand compares the product modulo `2 ^ 64`. So it says
yes where the elements can be read, and also where the product is past `2 ^ 64` and only what is
left of it fits (`checks_room_modulo`).
-/

namespace OfflineTx.Wire.Cursor

variable {c : Cursor} {size : UInt64} {what : Bytes}

/-- Reads of `size` bytes each, `n` of them one after the other, are all answered. -/
def Allows (c : Cursor) (n : Nat) (size : UInt64) (what : Bytes) : Prop :=
  ∀ i < n, ∃ bs c', (c.after (.replicate i (.bytes size, what))).read (.bytes size) what =
    (.ok (.bytes bs), c')

/-- The cursor `n` bytes further on. -/
def advance (c : Cursor) (n : Nat) : Cursor :=
  { c with value := c.value.advance n }

theorem advance_advance (c : Cursor) (m n : Nat) : (c.advance m).advance n = c.advance (m + n) := by
  simp only [advance, Reader.advance, List.drop_drop, Nat.add_assoc]

theorem length_rest_advance (c : Cursor) (n : Nat) :
    (c.advance n).value.rest.length = c.value.rest.length - n :=
  List.length_drop

theorem read_eq_ok_iff {c' : Cursor} {request : Request} {a : Answer} :
    c.read request what = (.ok a, c') ↔
      ∃ r, c.value.answer request what = .ok (a, r) ∧ c' = { c with value := r } := by
  rcases h : c.value.answer request what with f | ⟨b, r⟩
  · simp [read_eq, h]
  · simp only [read_eq, h, Prod.mk.injEq, Except.ok.injEq]
    constructor
    · rintro ⟨rfl, rfl⟩
      exact ⟨r, ⟨rfl, rfl⟩, rfl⟩
    · rintro ⟨_, ⟨rfl, rfl⟩, rfl⟩
      exact ⟨rfl, rfl⟩

theorem read_bytes (h : size.toNat ≤ c.value.rest.length) (what : Bytes) :
    c.read (.bytes size) what =
      (.ok (.bytes (c.value.rest.take size.toNat)), c.advance size.toNat) := by
  refine read_eq_ok_iff.2 ⟨c.value.advance size.toNat, ?_, rfl⟩
  rw [Reader.answer, Reader.bytes, if_pos (Bytes.fits_iff.2 h)]
  rfl

theorem read_bytes_iff :
    (∃ bs c', c.read (.bytes size) what = (.ok (.bytes bs), c')) ↔
      size.toNat ≤ c.value.rest.length := by
  refine ⟨?_, fun h => ⟨_, _, read_bytes h what⟩⟩
  rintro ⟨bs, c', h⟩
  obtain ⟨r, hr, -⟩ := read_eq_ok_iff.1 h
  obtain ⟨⟨v, _⟩, hv, -⟩ := map_eq_ok_iff.1 hr
  obtain ⟨hlen, hp⟩ := Reader.bytes_eq_ok_iff.1 hv
  exact hlen ▸ hp.length_le

theorem after_replicate : ∀ {i : Nat}, i * size.toNat ≤ c.value.rest.length →
    c.after (.replicate i (.bytes size, what)) = c.advance (i * size.toNat)
  | 0, _ => by
    rw [Nat.zero_mul]
    rfl
  | i + 1, h => by
    rw [Nat.succ_mul] at h ⊢
    have hroom : size.toNat ≤ (c.advance (i * size.toNat)).value.rest.length := by
      rw [length_rest_advance]
      omega
    have ih : c.after (.replicate i (.bytes size, what)) = c.advance (i * size.toNat) :=
      after_replicate (by omega)
    rw [after] at ih
    rw [List.replicate_succ', after, List.foldl_append, ih, List.foldl_cons, List.foldl_nil,
      read_bytes hroom, advance_advance]

/-- The last of the reads is answered if its bytes follow those of the reads before it. -/
theorem allows_iff : ∀ {n : Nat},
    c.Allows n size what ↔ n * size.toNat ≤ c.value.rest.length
  | 0 => by simp [Allows]
  | n + 1 => by
    have ih := allows_iff (n := n)
    have hsucc : c.Allows (n + 1) size what ↔ c.Allows n size what ∧
        ∃ bs c', (c.after (.replicate n (.bytes size, what))).read (.bytes size) what =
          (.ok (.bytes bs), c') :=
      Nat.forall_lt_succ_right
    rw [hsucc, ih, Nat.succ_mul]
    constructor
    · rintro ⟨hn, hlast⟩
      rw [after_replicate hn, read_bytes_iff, length_rest_advance] at hlast
      omega
    · intro h
      have hn : n * size.toNat ≤ c.value.rest.length := by omega
      refine ⟨hn, ?_⟩
      rw [after_replicate hn, read_bytes_iff, length_rest_advance]
      omega

theorem read_elements_iff {n : UInt64} :
    c.read (.elements n size) what = (.ok .nothing, c) ↔
      n.toNat * size.toNat % 2 ^ 64 ≤ c.value.rest.length := by
  have hneed : c.value.needElements n size what = .ok () ↔
      (n * size).toNat ≤ c.value.rest.length := Reader.need_eq_ok_iff
  rw [← UInt64.toNat_mul, ← hneed]
  rcases h : c.value.needElements n size what with f | _
  · simp [read_eq, Reader.answer, h, Except.map]
  · simp [read_eq, Reader.answer, h, Except.map]

/-- As many elements can be read as fit the bytes that follow. The check says so if they can, and
otherwise says it only if their bytes are too many for a word and those past it would fit. -/
theorem checks_room_modulo (c : Cursor) (n size : UInt64) (what : Bytes) :
    (c.Allows n.toNat size what ↔ n.toNat * size.toNat ≤ c.value.rest.length) ∧
      (c.read (.elements n size) what = (.ok .nothing, c) ↔ c.Allows n.toNat size what ∨
        2 ^ 64 ≤ n.toNat * size.toNat ∧
          n.toNat * size.toNat % 2 ^ 64 ≤ c.value.rest.length) := by
  refine ⟨allows_iff, ?_⟩
  rw [read_elements_iff, allows_iff]
  generalize n.toNat * size.toNat = total
  omega

/-- No byte follows, but the check finds room for `2 ^ 63` elements of two bytes. -/
theorem checks_room_past_word :
    let n : UInt64 := 0x8000000000000000
    (ofBytes []).read (.elements n 2) [] = (.ok .nothing, ofBytes []) ∧
      ¬(ofBytes []).Allows n.toNat 2 [] ∧
      ¬n.toNat * (2 : UInt64).toNat ≤ (ofBytes []).value.rest.length := by
  intro n
  have hroom : ¬n.toNat * (2 : UInt64).toNat ≤ (ofBytes []).value.rest.length := by decide
  exact ⟨read_elements_iff.2 (by decide), fun h => hroom (allows_iff.1 h), hroom⟩

end OfflineTx.Wire.Cursor
