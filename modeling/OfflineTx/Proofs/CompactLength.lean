import Mathlib.Tactic.ByContra
import OfflineTx.Proofs.Prefixes

/-!
# Which bytes begin with a length

Bytes begin with the form of a length, or they end inside one, or no length begins this way. Since
more bytes do not change what was read (`decode_append`), no form begins another
(`eq_of_encode_prefix`). Bytes that end inside a form become one with a last group of one
(`decode_append_one`). So the three answers of reading are the three cases (`decode_classifies`).
-/

namespace OfflineTx.CompactLength

variable {bs : Bytes} {n m : UInt16} {used : Nat}

theorem decode_eq_ok_iff : decode bs = .ok (n, used) ↔ encode n <+: bs ∧ used = size n := by
  constructor
  · intro h
    obtain ⟨hused, hbs⟩ := eq_encode_of_decode h
    exact ⟨⟨bs.drop used, hbs.symm⟩, hused⟩
  · rintro ⟨⟨more, rfl⟩, rfl⟩
    exact decode_encode_append n more

theorem eq_of_encode_prefix (h : encode n <+: encode m) : n = m := by
  have hn : decode (encode m) = .ok (n, size n) := decode_eq_ok_iff.2 ⟨h, rfl⟩
  have hm : decode (encode m) = .ok (m, size m) :=
    decode_eq_ok_iff.2 ⟨List.prefix_refl _, rfl⟩
  rw [hn] at hm
  cases hm
  rfl

/-- Where a length may go on, it may end with a group of one. -/
theorem decode_append_one (h : decode bs = .error .truncated) :
    ∃ n, decode (bs ++ [1]) = .ok (n, bs.length + 1) := by
  rcases bs with _ | ⟨a, bs⟩
  · exact ⟨1, rfl⟩
  by_cases ha : a.toNat < 128
  · simp [decode, ha] at h
  rcases bs with _ | ⟨b, bs⟩
  · exact ⟨_, by simp [decode, ha]; rfl⟩
  by_cases hz : b.toNat = 0
  · simp [decode, ha, hz] at h
  by_cases hb : b.toNat < 128
  · simp [decode, ha, hz, hb] at h
  rcases bs with _ | ⟨c, bs⟩
  · exact ⟨_, by simp [decode, ha, hz, hb]; rfl⟩
  · simp only [decode, ha, hz, hb, if_false] at h
    split at h <;> cases h

theorem decode_eq_truncated_iff :
    decode bs = .error .truncated ↔ ∃ n, bs <+: encode n ∧ bs ≠ encode n := by
  constructor
  · intro h
    obtain ⟨n, hn⟩ := decode_append_one h
    obtain ⟨-, hbs⟩ := eq_encode_of_decode hn
    have hform : bs ++ [1] = encode n := by simpa using hbs
    refine ⟨n, ⟨[1], hform⟩, fun heq => ?_⟩
    rw [← heq] at hform
    simp at hform
  · rintro ⟨n, ⟨more, hmore⟩, hne⟩
    by_contra h
    -- Bytes that decide the answer would give the length already, and so be no less than its form.
    have hsame : decode (bs ++ more) = decode bs := decode_append h
    have hn : decode bs = .ok (n, size n) := by
      rw [← hsame, hmore]
      exact decode_eq_ok_iff.2 ⟨List.prefix_refl _, rfl⟩
    obtain ⟨hform, -⟩ := decode_eq_ok_iff.1 hn
    exact hne (List.IsPrefix.eq_of_length_le ⟨more, hmore⟩ hform.length_le)

theorem decode_eq_malformed_iff : decode bs = .error .malformed ↔
    (¬∃ n, encode n <+: bs) ∧ ¬∃ n, bs <+: encode n ∧ bs ≠ encode n := by
  rw [← decode_eq_truncated_iff]
  constructor
  · intro h
    refine ⟨?_, by simp [h]⟩
    rintro ⟨n, hn⟩
    rw [decode_eq_ok_iff.2 ⟨hn, rfl⟩] at h
    cases h
  · rintro ⟨hform, htruncated⟩
    rcases h : decode bs with defect | ⟨n, used⟩
    · cases defect with
      | truncated => exact absurd h htruncated
      | malformed => rfl
    · exact absurd ⟨n, (decode_eq_ok_iff.1 h).1⟩ hform

/-- Reading gives a length and its size exactly if the bytes begin with the form of the length,
wants more bytes exactly if they are the beginning of a form and not all of it, and refuses all
other bytes. No form is the beginning of another. -/
theorem decode_classifies :
    (∀ (bs : Bytes) (n : UInt16) (used : Nat), decode bs = .ok (n, used) ↔
      encode n <+: bs ∧ used = size n ∧ used = (encode n).length) ∧
    (∀ bs : Bytes, decode bs = .error .truncated ↔ ∃ n, bs <+: encode n ∧ bs ≠ encode n) ∧
    (∀ bs : Bytes, decode bs = .error .malformed ↔
      (¬∃ n, encode n <+: bs) ∧ ¬∃ n, bs <+: encode n ∧ bs ≠ encode n) ∧
    ∀ n m : UInt16, encode n <+: encode m → n = m := by
  refine ⟨fun bs n used => ?_, fun _ => decode_eq_truncated_iff,
    fun _ => decode_eq_malformed_iff, fun _ _ => eq_of_encode_prefix⟩
  rw [length_encode, and_self, decode_eq_ok_iff]

end OfflineTx.CompactLength
