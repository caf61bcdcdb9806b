import OfflineTx.Proofs.Refilling
import OfflineTx.Proofs.Verdict

/-!
# Which instructions are appended

An instruction is refused for the first of four reasons: the message is not legacy, the table does
not grant what an account asks for, there are too many accounts, or too many bytes (`refusal?`). The
accounts are counted as sets of addresses, and the bytes from the lengths of the lists
(`packetSize_appended`). Appending fails for just this reason and then changes nothing, and
otherwise leaves a zero slot for each account that has to sign (`append_verdict`).
-/

namespace OfflineTx

namespace Message

/-- The account asks for what it does not get: at its first place in the table it lacks a
permission, or it is not there and would have to sign. -/
def Lacks (m : Message) (a : AccountMeta) : Prop :=
  a.address ∈ m.keys ∧
      (a.signer = true ∧ m.isSigner (.ofNat (m.keys.idxOf a.address)) = false ∨
        a.writable = true ∧ m.isWritable (.ofNat (m.keys.idxOf a.address)) = false) ∨
    a.address ∉ m.keys ∧ a.signer = true

instance (m : Message) (a : AccountMeta) : Decidable (m.Lacks a) :=
  inferInstanceAs (Decidable (_ ∨ _))

/-- The addresses of the instruction that are not in the table. -/
def newAddresses (m : Message) (ix : Instruction) : Finset Address :=
  insert ix.program (ix.accounts.map (·.address)).toFinset \ m.keys.toFinset

/-- Those of them that no account asks to be written. -/
def newReadonly (m : Message) (ix : Instruction) : Finset Address :=
  (m.newAddresses ix).filter fun a => ∀ r ∈ ix.accounts, r.address = a → r.writable = false

/-- The number of accounts with the new ones. -/
def extendedCount (m : Message) (ix : Instruction) : Nat :=
  m.keys.length + (m.newAddresses ix).card

/-- The accounts pass their limit in number, or those that are only read do. -/
def Crowded (m : Message) (ix : Instruction) : Prop :=
  maxAccounts < m.extendedCount ix ∨
    255 < m.header.readonlyUnsigned.toNat + (m.newReadonly ix).card

instance (m : Message) (ix : Instruction) : Decidable (m.Crowded ix) :=
  inferInstanceAs (Decidable (_ ∨ _))

/-- The number of bytes of a transaction with the instruction at its end, with a signature for each
account that has to sign. -/
def appendedSize (m : Message) (ix : Instruction) : Nat :=
  compactSize m.required + 64 * m.required + 3 + compactSize (m.extendedCount ix) +
    32 * m.extendedCount ix + 32 + compactSize (m.instructions.length + 1) +
    (m.instructions.map CompiledInstruction.wireSize).sum + ix.wireSize

/-- The transaction would pass a packet, or hold a list too long for its length to be written. -/
def Oversized (m : Message) (ix : Instruction) : Prop :=
  maxPacket < m.appendedSize ix ∨ 0xffff < m.instructions.length + 1 ∨
    (∃ c ∈ m.instructions, 0xffff < c.accounts.length ∨ 0xffff < c.data.length) ∨
    0xffff < ix.accounts.length ∨ 0xffff < ix.data.length

instance (m : Message) (ix : Instruction) : Decidable (m.Oversized ix) :=
  inferInstanceAs (Decidable (_ ∨ _))

/-- The first reason why the instruction cannot be appended. -/
def refusal? (m : Message) (ix : Instruction) : Option FaultKind :=
  if m.version = .v0 then some .unsupportedVersion
  else if ∃ a ∈ ix.accounts, m.Lacks a then some .accountPermission
  else if m.Crowded ix then some .accountLimit
  else if m.Oversized ix then some .messageTooLarge
  else none

variable {m : Message} {ix : Instruction} {a : Address}

section Counts

theorem lacks_iff {r : AccountMeta} : m.Lacks r ↔ m.permits r = false := by
  rw [Lacks, permits, indexOf?_eq]
  by_cases h : r.address ∈ m.keys
  · simp only [h, if_true, true_and, not_true, false_and, or_false, Bool.and_eq_false_iff,
      Bool.or_eq_false_iff, Bool.not_eq_false']
  · simp only [h, if_false, false_and, not_false_iff, true_and, false_or, Bool.not_eq_false']

theorem exists_lacks_iff : (∃ a ∈ ix.accounts, m.Lacks a) ↔ ¬m.Allows ix := by
  simp only [lacks_iff, Allows, not_forall, Bool.not_eq_true, exists_prop]

theorem mem_newAddresses : a ∈ m.newAddresses ix ↔
    a ∉ m.keys ∧ ∃ r ∈ ix.references, r.address = a := by
  simp only [newAddresses, Finset.mem_sdiff, Finset.mem_insert, List.mem_toFinset, List.mem_map,
    Instruction.references, List.mem_append, List.mem_singleton]
  constructor
  · rintro ⟨rfl | ⟨r, hr, rfl⟩, hnew⟩
    · exact ⟨hnew, _, .inr rfl, rfl⟩
    · exact ⟨hnew, r, .inl hr, rfl⟩
  · rintro ⟨hnew, r, hr | rfl, rfl⟩
    · exact ⟨.inr ⟨r, hr, rfl⟩, hnew⟩
    · exact ⟨.inl rfl, hnew⟩

theorem length_firstSeen_newReferences :
    (firstSeen (m.newReferences ix)).length = (m.newAddresses ix).card := by
  rw [← List.toFinset_card_of_nodup (nodup_firstSeen _)]
  congr 1
  ext a
  rw [List.mem_toFinset, newReferences, mem_firstSeen_unseen, mem_newAddresses]

theorem length_newGroup_readonly : (m.newGroup ix false).length = (m.newReadonly ix).card := by
  have hnodup : (m.newGroup ix false).Nodup := List.Pairwise.filter _ (nodup_firstSeen _)
  rw [← List.toFinset_card_of_nodup hnodup]
  congr 1
  ext a
  rw [List.mem_toFinset, mem_newGroup, newReadonly, Finset.mem_filter, mem_newAddresses,
    ← Bool.not_eq_true, Instruction.writes_references]
  simp only [not_exists, not_and, Bool.not_eq_true]

end Counts

section Size

theorem wireSize_shiftInstruction (point count : Nat) (c : CompiledInstruction) :
    (shiftInstruction point count c).wireSize = c.wireSize := by
  simp only [shiftInstruction, CompiledInstruction.wireSize, List.length_map]

theorem packetSize_appended (hv : m.version = .legacy) :
    (m.appended ix).packetSize = m.appendedSize ix := by
  have hreq : (m.appended ix).required = m.required := rfl
  have hkeys : (m.appended ix).keys.length = m.extendedCount ix := by
    rw [length_keys_appended, Nat.add_assoc, length_newGroups, length_firstSeen_newReferences,
      extendedCount]
  have hext : (m.appended ix).extensionSize = 0 := by
    have hv' : (m.appended ix).version = .legacy := hv
    rw [extensionSize, hv']
  have hixs : (m.appended ix).instructions =
      m.instructions.map (shiftInstruction m.insertionPoint (m.newGroup ix true).length) ++
        [ix.indexed (m.appended ix).keys] := rfl
  have hlen : (m.appended ix).instructions.length = m.instructions.length + 1 := by
    rw [hixs, List.length_append, List.length_map, List.length_singleton]
  have hsum : ((m.appended ix).instructions.map CompiledInstruction.wireSize).sum =
      (m.instructions.map CompiledInstruction.wireSize).sum + ix.wireSize := by
    rw [hixs, List.map_append, List.sum_append, List.map_map, List.map_singleton,
      List.sum_singleton, ix.wireSize_indexed]
    exact congrArg (·.sum + _) (List.map_congr_left fun c _ => wireSize_shiftInstruction _ _ c)
  unfold packetSize wireSize appendedSize
  rw [hreq, hkeys, hext, hlen, hsum]
  omega

/-- A list that is too long for its length to be written takes more than a packet. -/
theorem oversized_iff : m.Oversized ix ↔ maxPacket < m.appendedSize ix := by
  refine ⟨fun h => ?_, .inl⟩
  have hixs := length_le_sum CompiledInstruction.wireSize
    (fun c => by unfold CompiledInstruction.wireSize; omega) m.instructions
  rcases h with h | h | ⟨c, hc, h⟩ | h
  · exact h
  · unfold appendedSize maxPacket
    omega
  · have hle := size_le_sum CompiledInstruction.wireSize hc
    simp only [CompiledInstruction.wireSize, countedSize] at hle
    unfold appendedSize maxPacket
    omega
  · unfold appendedSize maxPacket
    simp only [Instruction.wireSize, countedSize]
    omega

end Size

theorem failure?_append (m : Message) (ix : Instruction) :
    failure? (m.append ix) = m.refusal? ix := by
  unfold refusal?
  rcases hv : m.version with _ | _
  · rw [if_neg (by nofun), if_congr exists_lacks_iff rfl rfl]
    by_cases ha : m.Allows ix
    · rw [if_neg (not_not.2 ha), append_eq hv ha, length_firstSeen_newReferences,
        length_newGroup_readonly]
      change failure? (if m.Crowded ix then _ else _) = _
      by_cases hcrowded : m.Crowded ix
      · rw [if_pos hcrowded, if_pos hcrowded]
        rfl
      · rw [if_neg hcrowded, if_neg hcrowded, failure?_map, if_congr oversized_iff rfl rfl,
          ← packetSize_appended hv]
        exact failure?_sizeInPacket _
    · rw [if_pos ha]
      obtain ⟨f, hf, hkind⟩ := append_of_not_allows hv ha
      rw [hf, failure?, hkind]
  · rw [if_pos rfl]
    unfold append joined
    rw [hv]
    rfl

end Message

namespace Draft

variable {d : Draft} {ix : Instruction}

/-- Appending fails for the first reason there is and changes nothing, and without one it succeeds
and leaves a zero slot for each account that has to sign, in a transaction of the size counted. -/
theorem append_verdict (d : Draft) (ix : Instruction) :
    failure? (d.append ix).answer = d.content.message.refusal? ix ∧
      (∀ f, (d.append ix).answer = .error f → (d.append ix).after.content = d.content) ∧
      ((d.append ix).answer = .ok () →
        (d.append ix).after.content.signatures =
            List.replicate d.content.message.required (.zero 64) ∧
          (d.append ix).after.content.message.required = d.content.message.required ∧
          ∃ bs, (d.append ix).after.content.encode = .ok bs ∧
            bs.length = d.content.message.appendedSize ix) := by
  refine ⟨?_, fun f hf => ?_, fun hok => ?_⟩
  · rw [answer_append, failure?_map, Message.failure?_append]
  · rcases d.append_cases ix with ⟨_, -, hafter⟩ | ⟨m, -, hok, -⟩
    · exact hafter
    · rw [hf] at hok
      cases hok
  · rcases d.append_cases ix with ⟨f, hf, -⟩ | ⟨m, hm, -, hafter⟩
    · rw [hok] at hf
      cases hf
    · obtain ⟨haccepts, rfl⟩ := Message.append_eq_ok_iff.1 hm
      obtain ⟨bs, henc, hlen⟩ :=
        Transaction.encode_zeroSlots (Message.countable_of_packetSize haccepts.size_le)
      rw [hafter]
      exact ⟨rfl, rfl, bs, henc, hlen.trans (Message.packetSize_appended haccepts.legacy)⟩

end Draft

end OfflineTx
