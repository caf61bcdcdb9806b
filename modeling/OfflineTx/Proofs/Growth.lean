import OfflineTx.Proofs.Compilation
import OfflineTx.Proofs.PacketSize

/-!
# What further instructions cost

The number of bytes of a compiled message follows from its signers, its accounts and the lengths in
its instructions (`packetSize_laidOut`). Each of these grows with the instructions, so a compilation
of a list succeeds only if that of every first part of it does (`compile_prefix`).
-/

namespace OfflineTx

open Wire

section Seen

variable {xs ys : List AccountMeta}

theorem length_firstSeen_le (xs ys : List AccountMeta) :
    (firstSeen xs).length ≤ (firstSeen (xs ++ ys)).length := by
  rw [firstSeen_append, List.length_append]
  exact Nat.le_add_right _ _

theorem countP_eq_add (f g : Address → Bool) : ∀ l : List Address, l.countP f =
    (l.filter fun a => f a = true ∧ g a = true).length +
      (l.filter fun a => f a = true ∧ g a = false).length
  | [] => rfl
  | a :: l => by
    rw [List.countP_cons, countP_eq_add f g l]
    rcases hf : f a with _ | _ <;> rcases hg : g a with _ | _ <;> simp [hf, hg] <;> omega

/-- The signers of the table are the addresses that some reference asks to sign. -/
theorem signerTotal_references (feePayer : Address) (ixs : List Instruction) :
    signerTotal feePayer (references feePayer ixs) =
      (firstSeen (references feePayer ixs)).countP (signs (references feePayer ixs)) := by
  rw [signerTotal, tableGroup_eq, tableGroup_eq, firstSeen_references, List.countP_cons,
    ← firstSeen_references, countP_eq_add _ (writes (references feePayer ixs)),
    Message.signs_feePayer, if_pos rfl]
  omega

theorem signerTotal_le (feePayer : Address) (ixs jxs : List Instruction) :
    signerTotal feePayer (references feePayer ixs) ≤
      signerTotal feePayer (references feePayer (ixs ++ jxs)) := by
  rw [signerTotal_references, signerTotal_references, references_append, firstSeen_append,
    List.countP_append]
  refine Nat.le_trans (List.countP_mono_left fun a _ ha => ?_) (Nat.le_add_right _ _)
  rw [signs_append, ha, Bool.true_or]

end Seen

/-- The number of bytes that the instruction takes in a message. -/
def Instruction.wireSize (ix : Instruction) : Nat :=
  1 + countedSize ix.accounts.length + countedSize ix.data.length

theorem Instruction.wireSize_indexed (keys : List Address) (ix : Instruction) :
    (ix.indexed keys).wireSize = ix.wireSize := by
  simp only [indexed, CompiledInstruction.wireSize, List.length_map, wireSize]

/-- The number of bytes of the version byte and of an empty list of lookups. -/
def Version.envelopeSize : Version → Nat
  | .legacy => 0
  | .v0 => 2

/-- The number of bytes of a transaction without lookups, from its signers, its accounts and its
instructions. -/
def compiledSize (version : Version) (signers accounts : Nat) (ixs : List Instruction) : Nat :=
  compactSize signers + 64 * signers + 3 + compactSize accounts + 32 * accounts + 32 +
    compactSize ixs.length + (ixs.map Instruction.wireSize).sum + version.envelopeSize

theorem compiledSize_le {s s' n n' : Nat} (hs : s ≤ s') (hn : n ≤ n') (version : Version)
    (ixs jxs : List Instruction) :
    compiledSize version s n ixs ≤ compiledSize version s' n' (ixs ++ jxs) := by
  have hcs := compactSize_mono hs
  have hcn := compactSize_mono hn
  have hci : compactSize ixs.length ≤ compactSize (ixs ++ jxs).length :=
    compactSize_mono (by rw [List.length_append]; omega)
  unfold compiledSize
  rw [List.map_append, List.sum_append]
  omega

namespace Message

variable {version : Version} {feePayer : Address} {recentHash : Hash} {ixs jxs : List Instruction}
  {m : Message}

theorem packetSize_laidOut (recentHash : Hash)
    (hs : signerTotal feePayer (references feePayer ixs) ≤ maxSigners) :
    (laidOut version feePayer recentHash ixs).packetSize =
      compiledSize version (signerTotal feePayer (references feePayer ixs))
        (firstSeen (references feePayer ixs)).length ixs := by
  have hreq : (laidOut version feePayer recentHash ixs).required =
      signerTotal feePayer (references feePayer ixs) :=
    toNat_toUInt8 (Nat.lt_of_le_of_lt hs (by decide))
  have hkeys : (laidOut version feePayer recentHash ixs).keys.length =
      (firstSeen (references feePayer ixs)).length :=
    length_table_references feePayer ixs
  have hsum : ((laidOut version feePayer recentHash ixs).instructions.map
      CompiledInstruction.wireSize).sum = (ixs.map Instruction.wireSize).sum := by
    rw [laidOut, List.map_map]
    exact congrArg _ (List.map_congr_left fun ix _ => ix.wireSize_indexed _)
  have hlen : (laidOut version feePayer recentHash ixs).instructions.length = ixs.length :=
    List.length_map ..
  have hext : (laidOut version feePayer recentHash ixs).extensionSize =
      version.envelopeSize := by
    rcases version with _ | _ <;> rfl
  unfold packetSize wireSize compiledSize
  rw [hreq, hkeys, hsum, hlen, hext]
  omega

theorem compile_eq_ok_iff_size : compile version feePayer recentHash ixs = .ok m ↔
    signerTotal feePayer (references feePayer ixs) ≤ maxSigners ∧
      (firstSeen (references feePayer ixs)).length ≤ maxAccounts ∧
      compiledSize version (signerTotal feePayer (references feePayer ixs))
        (firstSeen (references feePayer ixs)).length ixs ≤ maxPacket ∧
      m = laidOut version feePayer recentHash ixs := by
  rw [compile_eq_ok_iff]
  constructor
  · rintro ⟨hs, hn, rfl, size, hsize⟩
    rw [← packetSize_laidOut recentHash hs]
    exact ⟨hs, hn, (sizeInPacket_eq_ok_iff.1 hsize).1, rfl⟩
  · rintro ⟨hs, hn, hle, rfl⟩
    rw [← packetSize_laidOut recentHash hs] at hle
    exact ⟨hs, hn, rfl, _, sizeInPacket_eq_ok_iff.2 ⟨hle, rfl⟩⟩

theorem compile_prefix (h : compile version feePayer recentHash (ixs ++ jxs) = .ok m) :
    ∃ m, compile version feePayer recentHash ixs = .ok m := by
  obtain ⟨hs, hn, hle, -⟩ := compile_eq_ok_iff_size.1 h
  have hs' := signerTotal_le feePayer ixs jxs
  have hn' := length_firstSeen_le (references feePayer ixs) (jxs.flatMap Instruction.references)
  rw [← references_append] at hn'
  exact ⟨_, compile_eq_ok_iff_size.2 ⟨Nat.le_trans hs' hs, Nat.le_trans hn' hn,
    Nat.le_trans (compiledSize_le hs' hn' version ixs jxs) hle, rfl⟩⟩

end Message

end OfflineTx
