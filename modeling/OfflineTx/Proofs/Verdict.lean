import Mathlib.Data.Finset.Card
import Mathlib.Data.Finset.Dedup
import OfflineTx.Proofs.Growth
import OfflineTx.Proofs.Reuse
import OfflineTx.Proofs.RoundTrip

/-!
# Which compilations succeed

A compilation has at most three things wrong with it: too many different signers, too many
different addresses, too many bytes. It fails for the first of these that is wrong
(`Message.failure?_compile`), and otherwise gives a message whose transaction has just the bytes
that were counted (`Message.judged`). A compiler that was used before judges like a new one
(`Reached.answer_compile`).
-/

namespace OfflineTx

open Wire

section Distinct

/-- The addresses that have to sign: the fee payer, and those that some account says so of. -/
def signerAddresses (feePayer : Address) (ixs : List Instruction) : Finset Address :=
  insert feePayer (((ixs.flatMap (·.accounts)).filter (·.signer)).map (·.address)).toFinset

/-- All addresses: the fee payer, the accounts and the programs. -/
def allAddresses (feePayer : Address) (ixs : List Instruction) : Finset Address :=
  insert feePayer
    (((ixs.flatMap (·.accounts)).map (·.address)).toFinset ∪ (ixs.map (·.program)).toFinset)

variable {feePayer a : Address} {ixs : List Instruction}

theorem length_firstSeen_references :
    (firstSeen (references feePayer ixs)).length = (allAddresses feePayer ixs).card := by
  rw [← length_table_references, ← List.toFinset_card_of_nodup (nodup_table _ _)]
  congr 1
  ext a
  simp only [List.mem_toFinset, mem_table_references, allAddresses, Finset.mem_insert,
    Finset.mem_union, List.mem_map, List.mem_flatMap]
  refine or_congr_right ?_
  constructor
  · rintro ⟨ix, hix, rfl | ⟨r, hr, rfl⟩⟩
    · exact .inr ⟨ix, hix, rfl⟩
    · exact .inl ⟨r, ⟨ix, hix, hr⟩, rfl⟩
  · rintro (⟨r, ⟨ix, hix, hr⟩, rfl⟩ | ⟨ix, hix, rfl⟩)
    · exact ⟨ix, hix, .inr ⟨r, hr, rfl⟩⟩
    · exact ⟨ix, hix, .inl rfl⟩

theorem mem_signerAddresses : a ∈ signerAddresses feePayer ixs ↔
    a = feePayer ∨ ∃ ix ∈ ixs, ∃ r ∈ ix.accounts, r.signer = true ∧ r.address = a := by
  simp only [signerAddresses, Finset.mem_insert, List.mem_toFinset, List.mem_map, List.mem_filter,
    List.mem_flatMap]
  refine or_congr_right ?_
  constructor
  · rintro ⟨r, ⟨⟨ix, hix, hr⟩, hs⟩, rfl⟩
    exact ⟨ix, hix, r, hr, hs, rfl⟩
  · rintro ⟨ix, hix, r, hr, hs, rfl⟩
    exact ⟨r, ⟨⟨ix, hix, hr⟩, hs⟩, rfl⟩

theorem signs_references :
    signs (references feePayer ixs) a = true ↔ a ∈ signerAddresses feePayer ixs := by
  rw [mem_signerAddresses, signs, List.any_eq_true]
  simp only [Bool.and_eq_true, beq_iff_eq, references, List.mem_cons, List.mem_flatMap]
  constructor
  · rintro ⟨r, rfl | ⟨ix, hix, hr⟩, rfl, hs⟩
    · exact .inl rfl
    · rcases List.mem_append.1 hr with hr | hr
      · exact .inr ⟨ix, hix, r, hr, hs, rfl⟩
      · rw [List.mem_singleton.1 hr] at hs
        cases hs
  · rintro (rfl | ⟨ix, hix, r, hr, hs, rfl⟩)
    · exact ⟨_, .inl rfl, rfl, rfl⟩
    · exact ⟨r, .inr ⟨ix, hix, List.mem_append_left _ hr⟩, rfl, hs⟩

theorem signerTotal_eq_card :
    signerTotal feePayer (references feePayer ixs) = (signerAddresses feePayer ixs).card := by
  rw [signerTotal_references, List.countP_eq_length_filter,
    ← List.toFinset_card_of_nodup ((nodup_firstSeen _).filter _)]
  congr 1
  ext a
  rw [List.mem_toFinset, List.mem_filter, signs_references, and_iff_right_iff_imp,
    ← signs_references]
  intro hs
  by_contra hnot
  rw [signs_of_not_mem hnot] at hs
  cases hs

end Distinct

namespace Transaction

variable {t : Transaction} {bs : Bytes}

/-- A transaction takes as many bytes as are counted for its message. -/
theorem length_of_encode (h : t.encode = .ok bs) : bs.length = t.message.packetSize := by
  obtain ⟨hslots, hcount, rfl⟩ := encode_eq_ok_iff.1 h
  have hlt := t.message.required_lt
  rw [List.length_append, Message.length_wire hcount, signaturesWire,
    Message.length_fixedList (by omega), hslots, Message.packetSize]

theorem encode_zeroSlots {m : Message} (h : m.Countable) :
    ∃ bs, encode { signatures := zeroSlots m, message := m } = .ok bs ∧
      bs.length = m.packetSize := by
  have henc : encode { signatures := zeroSlots m, message := m } = .ok _ :=
    encode_eq_ok_iff.2 ⟨length_zeroSlots m, h, rfl⟩
  exact ⟨_, henc, length_of_encode henc⟩

end Transaction

/-- A list that is too long for its length to be written takes more than a packet. -/
theorem maxPacket_lt_compiledSize {version : Version} {signers accounts : Nat}
    {ixs : List Instruction} (h : 0xffff < ixs.length ∨
      ∃ ix ∈ ixs, 0xffff < ix.accounts.length ∨ 0xffff < ix.data.length) :
    maxPacket < compiledSize version signers accounts ixs := by
  unfold compiledSize maxPacket
  rcases h with h | ⟨ix, hix, h⟩
  · have hsum := Message.length_le_sum Instruction.wireSize
      (fun ix => by unfold Instruction.wireSize; omega) ixs
    omega
  · have hsum := Message.size_le_sum Instruction.wireSize hix
    simp only [Instruction.wireSize, countedSize] at hsum ⊢
    omega

namespace Message

variable {m : Message} {version : Version} {feePayer : Address} {recentHash : Hash}
  {ixs : List Instruction}

theorem kind_of_sizeInPacket {f : Fault} (h : m.sizeInPacket = .error f) :
    f.kind = .messageTooLarge := by
  unfold sizeInPacket at h
  split at h
  · cases h
    rfl
  · rename_i hnone
    rw [transactionSize_eq (overlong?_eq_none_iff.1 hnone)] at h
    simp only at h
    split at h
    · cases h
      rfl
    · cases h

theorem failure?_sizeInPacket (m : Message) :
    failure? m.sizeInPacket = if maxPacket < m.packetSize then some .messageTooLarge else none := by
  rcases hsize : m.sizeInPacket with f | n
  · have hover : maxPacket < m.packetSize := by
      by_contra hle
      rw [sizeInPacket_eq_ok_iff.2 ⟨Nat.le_of_not_lt hle, rfl⟩] at hsize
      cases hsize
    rw [if_pos hover, failure?, kind_of_sizeInPacket hsize]
  · rw [if_neg (Nat.not_lt_of_le (sizeInPacket_eq_ok_iff.1 hsize).1)]
    rfl

/-- Compiling fails for the first of three limits that is passed. The first two do not depend on the
version. -/
theorem failure?_compile (version : Version) (feePayer : Address) (recentHash : Hash)
    (ixs : List Instruction) :
    failure? (compile version feePayer recentHash ixs) =
      if maxSigners < signerTotal feePayer (references feePayer ixs) then some .tooManySignatures
      else if maxAccounts < (firstSeen (references feePayer ixs)).length then some .accountLimit
      else if maxPacket < (laidOut version feePayer recentHash ixs).packetSize then
        some .messageTooLarge
      else none := by
  rw [compile, Compiler.compile_eq (by decide)]
  split
  · rfl
  · split
    · rfl
    · rw [failure?_map, failure?_sizeInPacket]

theorem packetSize_of_compile (h : compile version feePayer recentHash ixs = .ok m) :
    m.packetSize ≤ maxPacket := by
  obtain ⟨-, -, -, size, hsize⟩ := compile_eq_ok_iff.1 h
  exact (sizeInPacket_eq_ok_iff.1 hsize).1

end Message

/-- An answer judged by how many different signers and addresses there are and how many bytes they
make: it fails for the first of these that passes its limit, and gives a message of this size if
none does. -/
structure Judged (answer : Except Fault Message) (signers addresses size : Nat) : Prop where
  tooManySigners : FailsFor answer .tooManySignatures ↔ maxSigners < signers
  tooManyAccounts : signers ≤ maxSigners →
    (FailsFor answer .accountLimit ↔ maxAccounts < addresses)
  tooLarge : signers ≤ maxSigners → addresses ≤ maxAccounts →
    (FailsFor answer .messageTooLarge ↔ maxPacket < size)
  compiled : signers ≤ maxSigners → addresses ≤ maxAccounts → size ≤ maxPacket →
    ∃ m bs, answer = .ok m ∧
      Transaction.encode { signatures := Transaction.zeroSlots m, message := m } = .ok bs ∧
      bs.length = size

theorem judged_of_failure? {answer : Except Fault Message} {signers addresses size : Nat}
    (h : failure? answer = if maxSigners < signers then some .tooManySignatures
      else if maxAccounts < addresses then some .accountLimit
      else if maxPacket < size then some .messageTooLarge
      else none)
    (hok : ∀ m, answer = .ok m → ∃ bs,
      Transaction.encode { signatures := Transaction.zeroSlots m, message := m } = .ok bs ∧
        bs.length = size) :
    Judged answer signers addresses size := by
  refine ⟨?_, fun hs => ?_, fun hs hn => ?_, fun hs hn hle => ?_⟩
  · rw [← failure?_eq_some_iff, h]
    split_ifs <;> simp [*]
  · rw [← failure?_eq_some_iff, h, if_neg (by omega)]
    split_ifs <;> simp [*]
  · rw [← failure?_eq_some_iff, h, if_neg (by omega), if_neg (by omega)]
    split_ifs <;> simp [*]
  · rw [if_neg (by omega), if_neg (by omega), if_neg (by omega), failure?_eq_none_iff] at h
    obtain ⟨m, hm⟩ := h
    obtain ⟨bs, henc, hlen⟩ := hok m hm
    exact ⟨m, bs, hm, henc, hlen⟩

theorem Message.judged (version : Version) (feePayer : Address) (recentHash : Hash)
    (ixs : List Instruction) :
    Judged (compile version feePayer recentHash ixs) (signerAddresses feePayer ixs).card
      (allAddresses feePayer ixs).card
      (compiledSize version (signerAddresses feePayer ixs).card (allAddresses feePayer ixs).card
        ixs) := by
  rw [← signerTotal_eq_card, ← length_firstSeen_references]
  refine judged_of_failure? ?_ fun m hm => ?_
  · rw [failure?_compile]
    by_cases hs : maxSigners < signerTotal feePayer (references feePayer ixs)
    · rw [if_pos hs, if_pos hs]
    · rw [if_neg hs, if_neg hs, packetSize_laidOut recentHash (Nat.le_of_not_lt hs)]
  · obtain ⟨bs, henc, hlen⟩ :=
      Transaction.encode_zeroSlots (countable_of_packetSize (packetSize_of_compile hm))
    obtain ⟨hs, -, rfl, -⟩ := compile_eq_ok_iff.1 hm
    exact ⟨bs, henc, hlen.trans (packetSize_laidOut recentHash hs)⟩

namespace TrackedCompiler

variable {c : TrackedCompiler}

/-- A compilation fails for the first of its counts that passes a limit, a list too long for its
length to be written being too long for a packet, and otherwise gives a message whose transaction
has the size counted. A message that was to be replaced stays as it is if the compilation fails. -/
theorem judged_compile (hc : c.Reached) (version : Version) (feePayer : Address)
    (recentHash : Hash) (ixs : List Instruction) :
    Judged (c.compile version feePayer recentHash ixs).answer
        (signerAddresses feePayer ixs).card (allAddresses feePayer ixs).card
        (compiledSize version (signerAddresses feePayer ixs).card
          (allAddresses feePayer ixs).card ixs) ∧
      ((0xffff < ixs.length ∨
          ∃ ix ∈ ixs, 0xffff < ix.accounts.length ∨ 0xffff < ix.data.length) →
        maxPacket < compiledSize version (signerAddresses feePayer ixs).card
          (allAddresses feePayer ixs).card ixs) ∧
      ∀ m : DraftMessage,
        (c.compileInto m version feePayer recentHash ixs).answer =
            (c.compile version feePayer recentHash ixs).answer.map (fun _ => ()) ∧
          (∀ new, (c.compile version feePayer recentHash ixs).answer = .ok new →
            (c.compileInto m version feePayer recentHash ixs).after.2.value = new) ∧
          ∀ f, (c.compile version feePayer recentHash ixs).answer = .error f →
            (c.compileInto m version feePayer recentHash ixs).after.2 = m := by
  refine ⟨?_, maxPacket_lt_compiledSize, fun m => ?_⟩
  · rw [hc.answer_compile]
    exact Message.judged version feePayer recentHash ixs
  · obtain ⟨log, hinto⟩ := c.compileInto_eq version feePayer recentHash ixs m
    rw [hinto]
    exact ⟨rfl, fun new h => by simp only [h, Tracked.fresh], fun f h => by simp only [h]⟩

/-- The calls by a compiler that has compiled them before for another payer. -/
theorem judged_compile_calls :
    (empty.compile .v0 (.padded 32 [8]) (.padded 32 [9]) Message.calls).after.Reached ∧
      Judged ((empty.compile .v0 (.padded 32 [8]) (.padded 32 [9]) Message.calls).after.compile
        .legacy (.zero 32) (.padded 32 [9]) Message.calls).answer 2 4 306 := by
  have hreached := Reached.compile .v0 (.padded 32 [8]) (.padded 32 [9]) Message.calls .new
  have hjudged := (judged_compile hreached .legacy (.zero 32) (.padded 32 [9]) Message.calls).1
  have hsigners : (signerAddresses (.zero 32) Message.calls).card = 2 := by decide
  have haddresses : (allAddresses (.zero 32) Message.calls).card = 4 := by decide
  rw [hsigners, haddresses] at hjudged
  exact ⟨hreached, hjudged⟩

end TrackedCompiler

end OfflineTx
