import Mathlib.Logic.Function.Basic
import OfflineTx.Proofs.Extension
import OfflineTx.Proofs.Runs
import OfflineTx.Proofs.Verdict

/-!
# What survives the wire

A transaction is sound if it has as many slots as its message requires and the message is
consistent and can be counted; those are the transactions that can be written and read back
(`Sound.survives`). What is compiled, appended to or read is sound, and signing keeps it so
(`Desk.Sound.step`). So after any run of calls on any number of builders and drafts, every draft
survives the wire. One that was just built or appended to also fits a packet, since the bytes that
its encoding has are those that were counted when it was made (`Desk.Sound.survives`).
-/

namespace OfflineTx

namespace Message

variable {m : Message} {version : Version} {feePayer : Address} {recentHash : Hash}
  {ixs : List Instruction}

/-- A message that fits a packet requires too few signatures for its first byte to be taken for a
version. -/
theorem required_lt_of_packetSize (h : m.packetSize ≤ maxPacket) : m.required < 128 := by
  unfold packetSize maxPacket at h
  omega

theorem consistent_of_compile (h : compile version feePayer recentHash ixs = .ok m) :
    m.Consistent := by
  have hfit := packetSize_of_compile h
  obtain ⟨hs, hn, rfl, -⟩ := compile_eq_ok_iff.1 h
  have hg : (laidOut version feePayer recentHash ixs).Grouped _ _ _ _ := laidOut_grouped hs hn
  have hkeys := hg.length_eq
  have hreq := hg.required_eq
  have hrs := hg.readonlySigned_eq
  have hru := hg.readonlyUnsigned_eq
  have hlen : (laidOut version feePayer recentHash ixs).keys.length ≤ maxAccounts := by
    rwa [laidOut, length_table_references]
  have hresolves : ∀ c ∈ (laidOut version feePayer recentHash ixs).instructions,
      ∃ ix, (laidOut version feePayer recentHash ixs).Resolves c ix := by
    intro c hc
    obtain ⟨ix, hix, rfl⟩ := List.mem_map.1 hc
    refine ⟨ix, resolves_indexed hlen ?_ fun r hr => ?_⟩
    · exact mem_table_references.2 (.inr ⟨ix, hix, .inl rfl⟩)
    · exact mem_table_references.2 (.inr ⟨ix, hix, .inr ⟨r, hr, rfl⟩⟩)
  refine ⟨by omega, by omega, by omega, fun c hc => ?_, fun c hc => ?_,
    fun _ => ⟨rfl, required_lt_of_packetSize hfit⟩⟩
  · obtain ⟨ix, hix⟩ := hresolves c hc
    exact hix.program_lt
  · obtain ⟨ix, hix⟩ := hresolves c hc
    exact hix.account_lt

end Message

namespace Transaction

variable {t : Transaction} {m : Message} {bs : Bytes}

/-- There are as many slots as the message requires, and the message is consistent and its lists can
be counted. -/
structure Sound (t : Transaction) : Prop where
  slots : t.signatures.length = t.message.required
  consistent : t.message.Consistent
  countable : t.message.Countable

theorem Sound.survives (h : t.Sound) : ∃ bs, t.encode = .ok bs ∧ decode bs = .ok t := by
  have henc : t.encode = .ok _ := encode_eq_ok_iff.2 ⟨h.slots, h.countable, rfl⟩
  exact ⟨_, henc, decode_eq_ok_iff.2 ⟨h.consistent, henc⟩⟩

theorem sound_of_decode (h : decode bs = .ok t) : t.Sound := by
  obtain ⟨hcons, henc⟩ := decode_eq_ok_iff.1 h
  obtain ⟨hslots, hcount, -⟩ := encode_eq_ok_iff.1 henc
  exact ⟨hslots, hcons, hcount⟩

theorem sound_of_decodeText {codec : TextCodec} {text : Bytes}
    (h : decodeText codec text = .ok t) : t.Sound := by
  unfold decodeText at h
  split at h
  · cases h
  · exact sound_of_decode h

theorem sound_empty : empty.Sound := by
  have h : decode (signaturesWire [] ++ Message.empty.wire) = .ok empty := rfl
  exact sound_of_decode h

theorem sound_zeroSlots (hm : m.Consistent) (hfit : m.packetSize ≤ maxPacket) :
    Sound { signatures := zeroSlots m, message := m } :=
  ⟨length_zeroSlots m, hm, Message.countable_of_packetSize hfit⟩

theorem Sound.signWith (h : t.Sound) (completeness : Completeness) (signers : List Signer) :
    (t.signWith completeness signers).transaction.Sound where
  slots := by rw [message_signWith, length_signWith h.slots]
  consistent := by rw [message_signWith]; exact h.consistent
  countable := by rw [message_signWith]; exact h.countable

theorem Sound.set (h : t.Sound) (slot : Nat) (s : Signature) :
    Sound { t with signatures := t.signatures.set slot s } :=
  ⟨by rw [List.length_set, h.slots], h.consistent, h.countable⟩

end Transaction

namespace Draft

variable {d : Draft} {bs : Bytes}

/-- The draft can be written, its size is the number of bytes, and into whatever draft they are
read, they give it the same content. -/
def Survives (d : Draft) : Prop :=
  ∃ bs, d.encode.answer = .ok bs ∧ d.size.1 = bs.length ∧
    ∀ other : Draft, (other.decode bs).answer = .ok () ∧
      (other.decode bs).after.content = d.content

theorem size_eq (h : d.content.encode = .ok bs) : d.size.1 = bs.length := by
  rw [size, encode_eq, h]

theorem survives_of_sound (h : d.content.Sound) : d.Survives := by
  obtain ⟨bs, henc, hdec⟩ := h.survives
  refine ⟨bs, d.answer_encode.trans henc, size_eq henc, fun other => ⟨?_, ?_⟩⟩
  · rw [decode_eq, hdec]
    rfl
  · rw [decode_eq, hdec]
    rfl

theorem size_le (h : d.content.Sound) (hfit : d.content.message.packetSize ≤ maxPacket) :
    d.size.1 ≤ maxPacket := by
  obtain ⟨bs, henc, -⟩ := h.survives
  rwa [size_eq henc, Transaction.length_of_encode henc]

theorem sound_decode (d : Draft) (bs : Bytes) : (d.decode bs).after.content.Sound := by
  rw [decode_eq]
  rcases h : Transaction.decode bs with f | t
  · exact Transaction.sound_empty
  · exact Transaction.sound_of_decode h

theorem sound_decodeText (codec : TextCodec) (d : Draft) (text : Bytes) :
    (d.decodeText codec text).after.content.Sound := by
  rw [decodeText_eq]
  rcases h : Transaction.decodeText codec text with f | t
  · exact Transaction.sound_empty
  · exact Transaction.sound_of_decodeText h

theorem sound_append (h : d.content.Sound) {ix : Instruction}
    (happend : (d.append ix).answer = .ok ()) : (d.append ix).after.content.Sound ∧
      (d.append ix).after.content.message.packetSize ≤ maxPacket := by
  rcases d.append_cases ix with ⟨f, hf, -⟩ | ⟨m, hm, -, hafter⟩
  · rw [happend] at hf
    cases hf
  · obtain ⟨haccepts, rfl⟩ := Message.append_eq_ok_iff.1 hm
    rw [hafter]
    exact ⟨Transaction.sound_zeroSlots (Message.consistent_appended h.consistent haccepts)
      haccepts.size_le, haccepts.size_le⟩

end Draft

namespace Builder

variable {b : Builder} {version : Version} {d : Draft}

theorem reached_build (hb : b.compiler.Reached) (version : Version) (d : Draft) :
    (b.build version d).after.1.compiler.Reached := by
  rcases hinputs : b.inputs with f | ⟨feePayer, recentHash, ixs⟩
  · rw [build_of_inputs_error hinputs]
    exact hb
  · obtain ⟨log, h⟩ := build_of_inputs hinputs version d
    rw [h]
    exact hb.compile version feePayer recentHash ixs

theorem sound_build (hb : b.compiler.Reached) (hbuild : (b.build version d).answer = .ok ()) :
    (b.build version d).after.2.content.Sound ∧
      (b.build version d).after.2.content.message.packetSize ≤ maxPacket := by
  rcases b.build_cases version d with ⟨f, hf, -⟩ | ⟨_, _, _, m, hm, -, hafter⟩
  · rw [hbuild] at hf
    cases hf
  · have hcompile := hm
    rw [hb.answer_compile] at hcompile
    have hfit := Message.packetSize_of_compile hcompile
    rw [hafter]
    exact ⟨Transaction.sound_zeroSlots (Message.consistent_of_compile hcompile) hfit, hfit⟩

end Builder

namespace Desk

variable {k : Desk}

structure Sound (k : Desk) : Prop where
  compiler : k.builder.compiler.Reached
  draft : k.draft.content.Sound

theorem Sound.step (h : k.Sound) (call : Call) : (k.step call).Sound := by
  cases call with
  | setFeePayer a => exact ⟨h.compiler, h.draft⟩
  | setRecentHash a => exact ⟨h.compiler, h.draft⟩
  | add ixs => exact ⟨h.compiler, h.draft⟩
  | reset => exact ⟨h.compiler, h.draft⟩
  | build version =>
    refine ⟨Builder.reached_build h.compiler version k.draft, ?_⟩
    change (k.builder.build version k.draft).after.2.content.Sound
    rcases k.builder.build_cases version k.draft with ⟨f, -, hafter⟩ | ⟨_, _, _, m, -, hok, -⟩
    · rw [hafter]
      exact h.draft
    · exact (Builder.sound_build h.compiler hok).1
  | append ix =>
    refine ⟨h.compiler, ?_⟩
    change (k.draft.append ix).after.content.Sound
    rcases k.draft.append_cases ix with ⟨f, -, hafter⟩ | ⟨m, -, hok, -⟩
    · rw [hafter]
      exact h.draft
    · exact (Draft.sound_append h.draft hok).1
  | sign completeness signers =>
    refine ⟨h.compiler, ?_⟩
    change (k.draft.signWith completeness signers).after.content.Sound
    rw [Draft.content_signWith]
    exact h.draft.signWith completeness signers

/-- The draft survives the wire, and if it is built or appended to with success it then fits a
packet. -/
structure Survives (k : Desk) : Prop where
  draft : k.draft.Survives
  build : ∀ version, (k.builder.build version k.draft).answer = .ok () →
    (k.step (.build version)).draft.size.1 ≤ maxPacket
  append : ∀ ix, (k.draft.append ix).answer = .ok () →
    (k.step (.append ix)).draft.size.1 ≤ maxPacket

theorem Sound.survives (h : k.Sound) : k.Survives where
  draft := Draft.survives_of_sound h.draft
  build version hbuild := by
    obtain ⟨hbuilt, hfit⟩ := Builder.sound_build h.compiler hbuild
    exact Draft.size_le hbuilt hfit
  append ix happend := by
    obtain ⟨happended, hfit⟩ := Draft.sound_append h.draft happend
    exact Draft.size_le happended hfit

end Desk

/-- Any number of builders and drafts. -/
structure Office where
  builders : Nat → Builder := fun _ => {}
  drafts : Nat → Draft := fun _ => {}

namespace Office

def desk (o : Office) (b d : Nat) : Desk where
  builder := o.builders b
  draft := o.drafts d

/-- The calls that change a draft: those that prepare it, a slot overwritten, another draft assigned
to it, and bytes or text read into it. -/
inductive Call
  | prepare (b d : Nat) (call : Desk.Call)
  | overwrite (d slot : Nat) (s : Signature)
  | assign (d source : Nat)
  | decode (d : Nat) (bs : Bytes)
  | decodeText (d : Nat) (codec : TextCodec) (text : Bytes)

def setDraft (o : Office) (d : Nat) (new : Draft) : Office :=
  { o with drafts := Function.update o.drafts d new }

/-- The office after a call, whatever is answered to it. -/
def step (o : Office) : Call → Office
  | .prepare b d call =>
    let k := (o.desk b d).step call
    { builders := Function.update o.builders b k.builder
      drafts := Function.update o.drafts d k.draft }
  | .overwrite d slot s =>
    o.setDraft d { o.drafts d with signatures := (o.drafts d).signatures.set slot s }
  | .assign d source => o.setDraft d (o.drafts source)
  | .decode d bs => o.setDraft d ((o.drafts d).decode bs).after
  | .decodeText d codec text => o.setDraft d ((o.drafts d).decodeText codec text).after

/-- The office after a row of calls, from new builders and new drafts on. -/
def run (calls : List Call) : Office :=
  calls.foldl step {}

variable {o : Office}

def Sound (o : Office) : Prop :=
  ∀ b d, (o.desk b d).Sound

theorem sound_new : Sound {} :=
  fun _ _ => ⟨.new, Transaction.sound_empty⟩

theorem Sound.setDraft (h : o.Sound) {d : Nat} {new : Draft} (hnew : new.content.Sound) :
    (o.setDraft d new).Sound := by
  intro b e
  refine ⟨(h b e).compiler, ?_⟩
  change (Function.update o.drafts d new e).content.Sound
  rw [Function.update_apply]
  split
  · exact hnew
  · exact (h b e).draft

theorem Sound.step (h : o.Sound) (call : Call) : (o.step call).Sound := by
  cases call with
  | prepare b d call =>
    have hk := (h b d).step call
    intro b' d'
    refine ⟨?_, ?_⟩
    · change (Function.update o.builders b ((o.desk b d).step call).builder b').compiler.Reached
      rw [Function.update_apply]
      split
      · exact hk.compiler
      · exact (h b' d').compiler
    · change (Function.update o.drafts d ((o.desk b d).step call).draft d').content.Sound
      rw [Function.update_apply]
      split
      · exact hk.draft
      · exact (h b' d').draft
  | overwrite d slot s => exact h.setDraft ((h 0 d).draft.set slot s)
  | assign d source => exact h.setDraft (h 0 source).draft
  | decode d bs => exact h.setDraft ((o.drafts d).sound_decode bs)
  | decodeText d codec text => exact h.setDraft ((o.drafts d).sound_decodeText codec text)

theorem sound_foldl_step : ∀ (calls : List Call) {o : Office}, o.Sound → (calls.foldl step o).Sound
  | [], _, h => h
  | call :: calls, _, h => sound_foldl_step calls (h.step call)

/-- After any run of calls every draft survives the wire, and one that is then built or appended to
with success fits a packet. -/
theorem survives_run (calls : List Call) (b d : Nat) : ((run calls).desk b d).Survives :=
  (sound_foldl_step calls sound_new b d).survives

/-- A draft is built and signed, by one signer that fails, and assigned to one that could not be
read. A slot of that is then overwritten. -/
def handedOn : List Call :=
  [.prepare 0 0 (.setFeePayer (.zero 32)), .prepare 0 0 (.setRecentHash (.padded 32 [9])),
    .prepare 0 0 (.add Message.calls), .prepare 0 0 (.build .legacy),
    .prepare 0 0 (.sign .partly [⟨.padded 32 [2], fun _ => none⟩]), .decode 1 [0, 1],
    .assign 1 0, .overwrite 1 0 (.padded 64 [1])]

set_option maxRecDepth 4000 in
theorem survives_handedOn :
    (((run handedOn).builders 0).build .v0 ((run handedOn).drafts 1)).answer = .ok () ∧
      (((run handedOn).drafts 1).append Message.joining).answer = .ok () ∧
      ((run handedOn).desk 0 1).Survives :=
  ⟨rfl, rfl, survives_run handedOn 0 1⟩

end Office

end OfflineTx
