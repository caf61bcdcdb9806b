import Mathlib.Algebra.GroupWithZero.Nat
import OfflineTx.Message.Basic

/-!
# Permissions by position

An index tells by the counts of the header whether its account signs and may be written. Where the
header counts fit the table no difference of them wraps, so both are comparisons of numbers
(`isSigner_ofNat`, `isWritable_ofNat`). In a table of four groups that the header counts, they say
which group an account is in (`Grouped.permissions`).
-/

namespace OfflineTx.Message

variable {m : Message}

theorem isSigner_ofNat {i : Nat} (hi : i < 2 ^ 64) :
    m.isSigner (.ofNat i) = decide (i < m.required) := by
  simp only [isSigner, Groups.isSigner, groups, UInt64.lt_iff_toNat_lt,
    UInt64.toNat_ofNat_of_lt' hi, UInt8.toNat_toUInt64]
  rfl

/-- Among the signers as among the other accounts of the table, those come first that may be
written. -/
theorem isWritable_ofNat {i : Nat} (hn : m.keys.length < 2 ^ 64)
    (hs : m.header.readonlySigned.toNat ≤ m.required)
    (hu : m.header.readonlyUnsigned.toNat ≤ m.keys.length) (hi : i < m.keys.length) :
    m.isWritable (.ofNat i) = decide (i + m.header.readonlySigned.toNat < m.required ∨
      m.required ≤ i ∧ i + m.header.readonlyUnsigned.toNat < m.keys.length) := by
  have hi' : i < 2 ^ 64 := Nat.lt_trans hi hn
  have hsig : (m.header.required.toUInt64 - m.header.readonlySigned.toUInt64).toNat =
      m.required - m.header.readonlySigned.toNat := by
    have hle : m.header.readonlySigned.toUInt64 ≤ m.header.required.toUInt64 := by
      rwa [UInt64.le_iff_toNat_le, UInt8.toNat_toUInt64, UInt8.toNat_toUInt64]
    rw [UInt64.toNat_sub_of_le _ _ hle, UInt8.toNat_toUInt64, UInt8.toNat_toUInt64, required]
  have hkey : (UInt64.ofNat m.keys.length - m.header.readonlyUnsigned.toUInt64).toNat =
      m.keys.length - m.header.readonlyUnsigned.toNat := by
    have hle : m.header.readonlyUnsigned.toUInt64 ≤ UInt64.ofNat m.keys.length := by
      rwa [UInt64.le_iff_toNat_le, UInt8.toNat_toUInt64, UInt64.toNat_ofNat_of_lt' hn]
    rw [UInt64.toNat_sub_of_le _ _ hle, UInt8.toNat_toUInt64, UInt64.toNat_ofNat_of_lt' hn]
  have hreq : m.header.required.toUInt64.toNat = m.required := UInt8.toNat_toUInt64 _
  simp only [isWritable, Groups.isWritable, groups, UInt64.lt_iff_toNat_lt,
    UInt64.toNat_ofNat_of_lt' hi', UInt64.toNat_ofNat_of_lt' hn, hreq, hsig, hkey, hi, if_true]
  split
  · exact decide_eq_decide.2 (by omega)
  · exact decide_eq_decide.2 (by omega)

/-- The table is made of four groups and the header counts them: signers that may be written and
signers that may not, then others that may be written and others that may not. -/
structure Grouped (m : Message) (ws rs wu ru : List Address) : Prop where
  keys_eq : m.keys = ws ++ (rs ++ (wu ++ ru))
  required_eq : m.required = ws.length + rs.length
  readonlySigned_eq : m.header.readonlySigned.toNat = rs.length
  readonlyUnsigned_eq : m.header.readonlyUnsigned.toNat = ru.length

variable {ws rs wu ru : List Address}

theorem Grouped.length_eq (h : m.Grouped ws rs wu ru) :
    m.keys.length = ws.length + rs.length + wu.length + ru.length := by
  rw [h.keys_eq]
  simp only [List.length_append]
  omega

/-- In a table of four groups each account has the permissions of its group. -/
theorem Grouped.permissions (h : m.Grouped ws rs wu ru) (hn : m.keys.length < 2 ^ 64)
    {signs writes : Address → Bool} (hws : ∀ a ∈ ws, signs a = true ∧ writes a = true)
    (hrs : ∀ a ∈ rs, signs a = true ∧ writes a = false)
    (hwu : ∀ a ∈ wu, signs a = false ∧ writes a = true)
    (hru : ∀ a ∈ ru, signs a = false ∧ writes a = false) (i : Nat) (hi : i < m.keys.length) :
    m.isSigner (.ofNat i) = signs m.keys[i] ∧ m.isWritable (.ofNat i) = writes m.keys[i] := by
  have hlen := h.length_eq
  have hs := h.required_eq
  have hr := h.readonlySigned_eq
  have hu := h.readonlyUnsigned_eq
  rw [isSigner_ofNat (Nat.lt_trans hi hn), isWritable_ofNat hn (by omega) (by omega) hi,
    hlen]
  simp only [h.keys_eq]
  -- The account is in the first group that does not end before it.
  by_cases h₁ : i < ws.length
  · obtain ⟨hf, hg⟩ := hws _ (List.getElem_mem h₁)
    rw [List.getElem_append_left h₁, hf, hg, decide_eq_true (by omega), decide_eq_true (by omega)]
    exact ⟨rfl, rfl⟩
  · rw [List.getElem_append_right (Nat.le_of_not_lt h₁)]
    by_cases h₂ : i - ws.length < rs.length
    · obtain ⟨hf, hg⟩ := hrs _ (List.getElem_mem h₂)
      rw [List.getElem_append_left h₂, hf, hg, decide_eq_true (by omega),
        decide_eq_false (by omega)]
      exact ⟨rfl, rfl⟩
    · rw [List.getElem_append_right (Nat.le_of_not_lt h₂)]
      by_cases h₃ : i - ws.length - rs.length < wu.length
      · obtain ⟨hf, hg⟩ := hwu _ (List.getElem_mem h₃)
        rw [List.getElem_append_left h₃, hf, hg, decide_eq_false (by omega),
          decide_eq_true (by omega)]
        exact ⟨rfl, rfl⟩
      · have h₄ : i - ws.length - rs.length - wu.length < ru.length := by omega
        obtain ⟨hf, hg⟩ := hru _ (List.getElem_mem h₄)
        rw [List.getElem_append_right (Nat.le_of_not_lt h₃), hf, hg, decide_eq_false (by omega),
          decide_eq_false (by omega)]
        exact ⟨rfl, rfl⟩

end OfflineTx.Message
