import OfflineTx.Bytes

/-!
# Compact lengths

A length below `2 ^ 16` is written in groups of seven bits, lowest group first. Every byte but the
last has its top bit set, and the last group is zero only if it is the first. So each length has
one form, of one to three bytes (`Form`), which is read back whatever follows it
(`decode_encode_append`, `eq_encode_of_decode`).
-/

namespace OfflineTx.CompactLength

/-- Why no length can be read: the bytes end inside it, or no length begins this way. -/
inductive Defect
  | truncated
  | malformed
deriving DecidableEq

/-- The number of bytes of a length. -/
def size (n : UInt16) : Nat :=
  if n.toNat < 128 then 1 else if n.toNat < 16384 then 2 else 3

def encode (n : UInt16) : Bytes :=
  let v := n.toNat
  if v < 128 then [.ofNat v]
  else if v < 16384 then [.ofNat (v % 128 + 128), .ofNat (v / 128)]
  else [.ofNat (v % 128 + 128), .ofNat (v / 128 % 128 + 128), .ofNat (v / 16384)]

/-- The length that the bytes begin with and the number of bytes it takes. -/
def decode : Bytes → Except Defect (UInt16 × Nat)
  | [] => .error .truncated
  | a :: as =>
    if a.toNat < 128 then .ok (.ofNat a.toNat, 1)
    else match as with
      | [] => .error .truncated
      | b :: bs =>
        if b.toNat = 0 then .error .malformed
        else if b.toNat < 128 then .ok (.ofNat (a.toNat - 128 + b.toNat * 128), 2)
        else match bs with
          | [] => .error .truncated
          | c :: _ =>
            if c.toNat = 0 ∨ 4 ≤ c.toNat then .error .malformed
            else .ok (.ofNat (a.toNat - 128 + (b.toNat - 128) * 128 + c.toNat * 16384), 3)

theorem length_encode (n : UInt16) : (encode n).length = size n := by
  simp only [encode, size]
  split
  · rfl
  · split <;> rfl

theorem size_pos (n : UInt16) : 0 < size n := by
  simp only [size]
  split
  · decide
  · split <;> decide

/-- The groups of a length and the bytes that hold them. -/
inductive Form (n : UInt16) : Bytes → Prop
  | one {a : UInt8} (ha : a.toNat < 128) (hn : n.toNat = a.toNat) : Form n [a]
  | two {a b : UInt8} (ha : 128 ≤ a.toNat) (hb : 0 < b.toNat) (hb' : b.toNat < 128)
      (hn : n.toNat = a.toNat - 128 + b.toNat * 128) : Form n [a, b]
  | three {a b c : UInt8} (ha : 128 ≤ a.toNat) (hb : 128 ≤ b.toNat) (hc : 0 < c.toNat)
      (hc' : c.toNat < 4)
      (hn : n.toNat = a.toNat - 128 + (b.toNat - 128) * 128 + c.toNat * 16384) : Form n [a, b, c]

variable {n : UInt16} {form bs : Bytes} {used : Nat}

theorem form_encode (n : UInt16) : Form n (encode n) := by
  have hn := n.toNat_lt
  simp only [encode]
  split
  · refine .one ?_ ?_ <;> rw [UInt8.toNat_ofNat'] <;> omega
  · split
    · refine .two ?_ ?_ ?_ ?_ <;> simp only [UInt8.toNat_ofNat'] <;> omega
    · refine .three ?_ ?_ ?_ ?_ ?_ <;> simp only [UInt8.toNat_ofNat'] <;> omega

private theorem ofNat_eq {a : UInt8} {v : Nat} (h : v = a.toNat) : UInt8.ofNat v = a := by
  rw [h, UInt8.ofNat_toNat]

/-- Each length has one form. -/
theorem Form.encode_eq (h : Form n form) : encode n = form := by
  cases h with
  | @one a ha hn => rw [encode, if_pos (by omega), ofNat_eq hn]
  | @two a b ha hb hb' hn =>
    have ha' := a.toNat_lt
    rw [encode, if_neg (by omega), if_pos (by omega), ofNat_eq (show _ = a.toNat by omega),
      ofNat_eq (show _ = b.toNat by omega)]
  | @three a b c ha hb hc hc' hn =>
    have ha' := a.toNat_lt
    have hb' := b.toNat_lt
    rw [encode, if_neg (by omega), if_neg (by omega), ofNat_eq (show _ = a.toNat by omega),
      ofNat_eq (show _ = b.toNat by omega), ofNat_eq (show _ = c.toNat by omega)]

theorem Form.size_eq (h : Form n form) : size n = form.length := by
  rw [← h.encode_eq, length_encode]

theorem Form.decode_append (h : Form n form) (bs : Bytes) :
    decode (form ++ bs) = .ok (n, form.length) := by
  cases h with
  | one ha hn =>
    simp only [List.cons_append, decode]
    rw [if_pos ha, ← hn, UInt16.ofNat_toNat]
    rfl
  | two ha hb hb' hn =>
    simp only [List.cons_append, decode]
    rw [if_neg (by omega), if_neg (by omega), if_pos hb', ← hn, UInt16.ofNat_toNat]
    rfl
  | three ha hb hc hc' hn =>
    simp only [List.cons_append, decode]
    rw [if_neg (by omega), if_neg (by omega), if_neg (by omega), if_neg (by omega), ← hn,
      UInt16.ofNat_toNat]
    rfl

theorem form_of_decode (h : decode bs = .ok (n, used)) :
    ∃ form more, Form n form ∧ bs = form ++ more ∧ used = form.length := by
  unfold decode at h
  split at h
  · cases h
  · rename_i a as
    have ha' := a.toNat_lt
    split at h
    · rename_i ha
      cases h
      exact ⟨[a], as, .one ha (UInt16.toNat_ofNat_of_lt' (show _ < 65536 by omega)), rfl, rfl⟩
    · split at h
      · cases h
      · rename_i b bs
        have hb' := b.toNat_lt
        split at h
        · cases h
        · split at h
          · cases h
            exact ⟨[a, b], bs, .two (by omega) (by omega) (by omega)
              (UInt16.toNat_ofNat_of_lt' (show _ < 65536 by omega)), rfl, rfl⟩
          · split at h
            · cases h
            · rename_i c cs
              split at h
              · cases h
              · cases h
                exact ⟨[a, b, c], cs, .three (by omega) (by omega) (by omega) (by omega)
                  (UInt16.toNat_ofNat_of_lt' (show _ < 65536 by omega)), rfl, rfl⟩

/-- A length is read back, whatever follows it. -/
theorem decode_encode_append (n : UInt16) (bs : Bytes) :
    decode (encode n ++ bs) = .ok (n, size n) := by
  rw [(form_encode n).decode_append, length_encode]

/-- What is read is what was written: the bytes begin with the form of the length. -/
theorem eq_encode_of_decode (h : decode bs = .ok (n, used)) :
    used = size n ∧ bs = encode n ++ bs.drop used := by
  obtain ⟨form, more, hform, rfl, rfl⟩ := form_of_decode h
  rw [hform.size_eq, hform.encode_eq, List.drop_left]
  exact ⟨rfl, rfl⟩

end OfflineTx.CompactLength
