import Mathlib.Algebra.GroupWithZero.Nat
import OfflineTx.Bytes

/-!
# Bytes as numbers and in order

Bytes are read as a number below a power of 256 (`toNatLE_lt`). Highest byte first is lowest byte
first from the other end (`toNatBE_eq`). Bytes are compared by their beginnings before their ends
(`append_lt_append_iff`).
-/

namespace OfflineTx.Bytes

theorem toNatLE_lt : ∀ bs : Bytes, toNatLE bs < 256 ^ bs.length
  | [] => by simp [toNatLE]
  | b :: bs => by
    have hb := b.toNat_lt
    have ih := toNatLE_lt bs
    simp only [toNatLE, List.length_cons, Nat.pow_succ]
    omega

private theorem foldl_eq_toNatLE : ∀ (bs : Bytes) (n : Nat),
    bs.foldl (fun n b => 256 * n + b.toNat) n = 256 ^ bs.length * n + toNatLE bs.reverse := by
  intro bs
  induction bs with
  | nil => intro n; simp [toNatLE]
  | cons b bs ih =>
    intro n
    have happ : ∀ (xs : Bytes) (c : UInt8),
        toNatLE (xs ++ [c]) = toNatLE xs + 256 ^ xs.length * c.toNat := by
      intro xs c
      induction xs with
      | nil => simp [toNatLE]
      | cons x xs ih =>
        simp only [List.cons_append, toNatLE, ih, List.length_cons, Nat.pow_succ, Nat.mul_add]
        rw [Nat.mul_comm (256 ^ xs.length) 256, Nat.mul_assoc]
        omega
    rw [List.foldl_cons, ih, List.reverse_cons, happ, List.length_reverse, List.length_cons,
      Nat.pow_succ, Nat.mul_add, Nat.mul_assoc]
    omega

theorem toNatBE_eq (bs : Bytes) : toNatBE bs = toNatLE bs.reverse := by
  simp [toNatBE, foldl_eq_toNatLE]

/-- Bytes cannot be read one by one if one of them cannot be read. -/
theorem mapM_eq_none {α : Type} {f : UInt8 → Option α} {bs : Bytes} {b : UInt8} (hb : b ∈ bs)
    (h : f b = none) : bs.mapM f = none := by
  obtain ⟨before, after, rfl⟩ := List.append_of_mem hb
  rw [List.mapM_append, List.mapM_cons, h]
  cases before.mapM f <;> rfl

/-- Where the beginnings are as long as each other, they are compared first. -/
theorem append_lt_append_iff {xs ys : Bytes} : ∀ {as bs : Bytes}, as.length = bs.length →
    (as ++ xs < bs ++ ys ↔ as < bs ∨ as = bs ∧ xs < ys)
  | [], [], _ => by simp
  | a :: as, b :: bs, h => by
    rw [List.cons_append, List.cons_append, List.cons_lt_cons_iff, List.cons_lt_cons_iff,
      append_lt_append_iff (Nat.succ.inj h), List.cons.injEq]
    constructor
    · rintro (hlt | ⟨hab, hlt | ⟨has, hlt⟩⟩)
      · exact .inl (.inl hlt)
      · exact .inl (.inr ⟨hab, hlt⟩)
      · exact .inr ⟨⟨hab, has⟩, hlt⟩
    · rintro ((hlt | ⟨hab, hlt⟩) | ⟨⟨hab, has⟩, hlt⟩)
      · exact .inl hlt
      · exact .inr ⟨hab, .inl hlt⟩
      · exact .inr ⟨hab, .inr ⟨has, hlt⟩⟩

end OfflineTx.Bytes
