import OfflineTx.Proofs.Admission
import OfflineTx.Proofs.Survival

/-!
# The two versions of a message

The compiler lays out a message of version 0 like a legacy one (`laidOut_v0`). On the wire it has a
version byte more at its beginning and the length of no lookups more at its end (`wire_asV0`), and
so it takes two bytes more. A compilation fails for a reason that does not depend on the version,
or because the bytes do not fit (`failure?_compile`). So the two compilations of the same
instructions part only in the last two bytes of a packet (`enveloped_compile`).
-/

namespace OfflineTx

open Wire

namespace Message

/-- The same message, of version 0. -/
def asV0 (m : Message) : Message :=
  { m with version := .v0 }

variable {m m₀ : Message} {feePayer : Address} {recentHash : Hash} {ixs : List Instruction}

theorem laidOut_v0 (feePayer : Address) (recentHash : Hash) (ixs : List Instruction) :
    laidOut .v0 feePayer recentHash ixs = (laidOut .legacy feePayer recentHash ixs).asV0 := rfl

section Envelope

variable (hv : m.version = .legacy) (hl : m.lookups = [])
include hv hl

theorem wire_asV0 : m.asV0.wire = 0x80 :: (m.wire ++ [0]) := by
  have hnone : listWire Lookup.wire [] = [0] := rfl
  simp only [wire, lookupsWire, asV0, hv, hl, hnone, Version.wire, List.nil_append,
    List.singleton_append, List.append_nil, List.append_assoc]

theorem packetSize_asV0 : m.asV0.packetSize = m.packetSize + 2 := by
  have hnone : compactSize ([] : List Lookup).length = 1 := rfl
  simp only [packetSize, wireSize, extensionSize, asV0, required, hv, hl, hnone, List.map_nil,
    List.sum_nil]
  omega

theorem encode_asV0 {bs : Bytes} (h : m.encode = .ok bs) :
    m.asV0.encode = .ok (0x80 :: (bs ++ [0])) := by
  obtain ⟨hcount, rfl⟩ := encode_eq_ok_iff.1 h
  refine encode_eq_ok_iff.2 ⟨?_, (wire_asV0 hv hl).symm⟩
  exact ⟨hcount.keys, hcount.instructions, hcount.instruction, fun _ => by simp [asV0, hl]⟩

end Envelope

theorem failsFor_compile_v0 {kind : FaultKind}
    (h : FailsFor (compile .legacy feePayer recentHash ixs) kind) :
    FailsFor (compile .v0 feePayer recentHash ixs) kind := by
  rw [← failure?_eq_some_iff, failure?_compile] at h ⊢
  rw [laidOut_v0, packetSize_asV0 rfl rfl]
  split_ifs at h with hs hn hsize
  · rwa [if_pos hs]
  · rwa [if_neg hs, if_pos hn]
  · rwa [if_neg hs, if_neg hn, if_pos (by omega)]

theorem tooLarge_compile_v0 (hm : compile .legacy feePayer recentHash ixs = .ok m)
    (h : maxPacket < m.packetSize + 2) :
    FailsFor (compile .v0 feePayer recentHash ixs) .messageTooLarge := by
  obtain ⟨hs, hn, rfl, -⟩ := compile_eq_ok_iff.1 hm
  rw [← failure?_eq_some_iff, failure?_compile, laidOut_v0, packetSize_asV0 rfl rfl,
    if_neg (by omega), if_neg (by omega), if_pos h]

/-- What is compiled as version 0 is what is compiled as a legacy message, if two bytes more fit a
packet. -/
theorem compile_v0_eq_ok_iff : compile .v0 feePayer recentHash ixs = .ok m₀ ↔
    ∃ m, compile .legacy feePayer recentHash ixs = .ok m ∧ m.packetSize + 2 ≤ maxPacket ∧
      m₀ = m.asV0 := by
  simp only [compile_eq_ok_iff, sizeInPacket_eq_ok_iff, laidOut_v0]
  constructor
  · rintro ⟨hs, hn, rfl, n, hfit, -⟩
    rw [packetSize_asV0 rfl rfl] at hfit
    exact ⟨_, ⟨hs, hn, rfl, _, by omega, rfl⟩, hfit, rfl⟩
  · rintro ⟨_, ⟨hs, hn, rfl, -⟩, hfit, rfl⟩
    rw [← packetSize_asV0 rfl rfl] at hfit
    exact ⟨hs, hn, rfl, _, hfit, rfl⟩

end Message

/-- How the answer to a compilation as version 0 follows from that of the legacy compilation. A
message of version 0 is the legacy message between a version byte and an empty list of lookups.
There is one if the transaction has two bytes left in its packet, and if it has not, version 0 is
too large. Where the legacy compilation fails, the other fails for the same kind of reason. -/
structure Enveloped (legacy v0 : Except Fault Message) : Prop where
  of_v0 : ∀ m₀, v0 = .ok m₀ → ∃ m bs, legacy = .ok m ∧ m.version = .legacy ∧ m₀ = m.asV0 ∧
    m.encode = .ok bs ∧ m₀.encode = .ok (0x80 :: (bs ++ [0]))
  of_legacy : ∀ m, legacy = .ok m → ∃ bs,
    Transaction.encode { signatures := Transaction.zeroSlots m, message := m } = .ok bs ∧
      bs.length ≤ maxPacket ∧ (bs.length + 2 ≤ maxPacket → v0 = .ok m.asV0) ∧
      (maxPacket < bs.length + 2 → FailsFor v0 .messageTooLarge)
  of_failed : ∀ kind, FailsFor legacy kind → FailsFor v0 kind

namespace TrackedCompiler

variable {c d : TrackedCompiler}

/-- Of two compilers, whatever they compiled before, one compiles instructions to a legacy message
and the other to one of version 0: the answers differ in the envelope alone. -/
theorem enveloped_compile (hc : c.Reached) (hd : d.Reached) (feePayer : Address)
    (recentHash : Hash) (ixs : List Instruction) :
    Enveloped (c.compile .legacy feePayer recentHash ixs).answer
      (d.compile .v0 feePayer recentHash ixs).answer := by
  rw [hc.answer_compile, hd.answer_compile]
  refine ⟨fun m₀ h => ?_, fun m h => ?_, fun kind => Message.failsFor_compile_v0⟩
  · obtain ⟨m, hm, -, rfl⟩ := Message.compile_v0_eq_ok_iff.1 h
    have henc : m.encode = .ok m.wire := Message.encode_eq_ok_iff.2
      ⟨Message.countable_of_packetSize (Message.packetSize_of_compile hm), rfl⟩
    refine ⟨m, m.wire, hm, ?_⟩
    obtain ⟨-, -, rfl, -⟩ := Message.compile_eq_ok_iff.1 hm
    exact ⟨rfl, rfl, henc, Message.encode_asV0 rfl rfl henc⟩
  · have hfit := Message.packetSize_of_compile h
    obtain ⟨bs, henc, hlen⟩ :=
      Transaction.encode_zeroSlots (Message.countable_of_packetSize hfit)
    change bs.length = m.packetSize at hlen
    refine ⟨bs, henc, by omega, fun hroom => ?_, fun hfull => ?_⟩
    · exact Message.compile_v0_eq_ok_iff.2 ⟨m, h, by omega, rfl⟩
    · exact Message.tooLarge_compile_v0 h (by omega)

set_option maxRecDepth 4000 in
theorem enveloped_compile_calls :
    (empty.compile .v0 (.padded 32 [8]) (.padded 32 [9]) Message.calls).after.Reached ∧
      (empty.compile .v0 (.zero 32) (.padded 32 [9]) Message.calls).answer =
        .ok (Message.laidOut .v0 (.zero 32) (.padded 32 [9]) Message.calls) ∧
      Enveloped
        ((empty.compile .v0 (.padded 32 [8]) (.padded 32 [9]) Message.calls).after.compile .legacy
          (.zero 32) (.padded 32 [9]) Message.calls).answer
        (.ok (Message.laidOut .v0 (.zero 32) (.padded 32 [9]) Message.calls)) := by
  have hused := Reached.compile .v0 (.padded 32 [8]) (.padded 32 [9]) Message.calls .new
  have hv0 : (empty.compile .v0 (.zero 32) (.padded 32 [9]) Message.calls).answer =
      .ok (Message.laidOut .v0 (.zero 32) (.padded 32 [9]) Message.calls) := rfl
  have henv := enveloped_compile hused .new (.zero 32) (.padded 32 [9]) Message.calls
  rw [hv0] at henv
  exact ⟨hused, hv0, henv⟩

end TrackedCompiler

end OfflineTx
