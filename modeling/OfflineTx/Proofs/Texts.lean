import OfflineTx.Proofs.Base58
import OfflineTx.Proofs.Base64
import OfflineTx.Proofs.Calls
import OfflineTx.Proofs.RoundTrip

/-!
# Transactions as text

A text stands for bytes if it is one of its codec (`TextCodec.Means`), and reading it is reading
these bytes (`decodeText_of_means`). What is written stands for the bytes that were written
(`means_writeText`), so a transaction that its bytes are read as is also read from its text, and
base-58 text that is read as a transaction is the text of this transaction. The room that is made
for a text or for its bytes is never short (`TextCodec.Roomy`).
-/

namespace OfflineTx

namespace TextCodec

open Transaction

variable {codec : TextCodec} {text bs cs : Bytes}

/-- Texts over the alphabet of the codec, for base 64 in its grammar. -/
def Valid : TextCodec → Bytes → Prop
  | base58, text => ∀ c ∈ text, c ∈ Base58.alphabet
  | base64, text => Base64.Grammatical text

/-- The text stands for the bytes. -/
def Means : TextCodec → Bytes → Bytes → Prop
  | base58, text, bs => text = Base58.textOf bs
  | base64, text, bs => ∃ body pad, text = body ++ List.replicate pad 61 ∧ Base64.Spells body bs

theorem valid_iff : codec.Valid text ↔ ∃ bs, codec.Means text bs := by
  cases codec with
  | base58 =>
    constructor
    · intro h
      obtain ⟨bs, hbs, -⟩ := Base58.exists_textOf_eq h
      exact ⟨bs, hbs.symm⟩
    · rintro ⟨bs, rfl⟩
      exact Base58.textOf_alphabet bs
  | base64 =>
    simp only [Valid, Means, Base64.grammatical_iff, Base64.decode?_eq_some_iff]

theorem readText_eq_ok_iff : readText codec text = .ok bs ↔ codec.Means text bs := by
  cases codec with
  | base58 =>
    have hread : Base58.decode? (text.length + 1) text = some bs ↔ text = Base58.textOf bs := by
      refine ⟨Base58.eq_textOf_of_decode?, fun h => ?_⟩
      have hle := Base58.length_le_textOf bs
      rw [h, Base58.decode?_textOf, if_neg (by omega)]
    rw [Means, ← hread, readText]
    cases Base58.decode? (text.length + 1) text <;> simp
  | base64 =>
    rw [Means, ← Base64.decode?_eq_some_iff, readText]
    cases Base64.decode? text <;> simp

theorem Means.unique (h : codec.Means text bs) (h' : codec.Means text cs) : cs = bs := by
  rw [← readText_eq_ok_iff] at h h'
  rw [h, Except.ok.injEq] at h'
  exact h'.symm

theorem readText_of_not_valid (h : ¬codec.Valid text) :
    readText codec text = .error (.notText codec) := by
  have hnone : ∀ bs, readText codec text ≠ .ok bs :=
    fun bs hbs => h (valid_iff.2 ⟨bs, readText_eq_ok_iff.1 hbs⟩)
  unfold readText at hnone ⊢
  dsimp only at hnone ⊢
  split
  · rfl
  · rename_i bs hbs
    exact absurd (by rw [hbs]) (hnone bs)

theorem length_textOf_lt_room (bs : Bytes) :
    (Base58.textOf bs).length + 1 ≤ 2 * bs.length + 2 := by
  have h := Base58.length_textOf_le bs
  unfold Base58.textPlaces at h
  omega

theorem means_writeText (codec : TextCodec) (bs : Bytes) :
    codec.Means (writeText codec bs) bs := by
  cases codec with
  | base58 =>
    have hroom := length_textOf_lt_room bs
    rw [Means, writeText, Base58.encode?_eq]
    split
    · rename_i h
      obtain rfl : bs = [] := h.resolve_right (by omega)
      rfl
    · rfl
  | base64 => exact Base64.decode?_eq_some_iff.1 (Base64.decode?_encode bs)

/-- Text and bytes fit the room that is made for them: with more of it nothing else would come
out. The bytes of base-64 text are also those of its beginnings, which stand there until the text
is refused. -/
structure Roomy : Prop where
  written : ∀ (bs : Bytes) (room : Int), 2 * bs.length + 2 ≤ room →
    Base58.encode? room bs = Base58.encode? (2 * bs.length + 2) bs
  writtenGroups : ∀ bs : Bytes, (Base64.encode bs).length = Base64.textLength bs.length
  read : ∀ (text : Bytes) (room : Int), text.length + 1 ≤ room →
    Base58.decode? room text = Base58.decode? (text.length + 1) text
  readGroups : ∀ beginning text bs : Bytes, beginning <+: text →
    Base64.decode? beginning = some bs → bs.length ≤ text.length + 3

theorem roomy : Roomy where
  written bs room h := by
    have hroom := length_textOf_lt_room bs
    have hmore : ¬room < (Base58.textOf bs).length + 1 := by omega
    have henough : ¬(2 * bs.length + 2 : Int) < (Base58.textOf bs).length + 1 := by omega
    simp only [Base58.encode?_eq, hmore, henough]
  writtenGroups := Base64.length_encode
  read text room h := by
    by_cases hvalid : base58.Valid text
    · obtain ⟨bs, rfl⟩ := valid_iff.1 hvalid
      have hle := Base58.length_le_textOf bs
      rw [Base58.decode?_textOf, Base58.decode?_textOf, if_neg (by omega), if_neg (by omega)]
    · have hnot : ∃ c ∈ text, c ∉ Base58.alphabet := by simpa [Valid] using hvalid
      rw [Base58.decode?_of_not_mem room hnot, Base58.decode?_of_not_mem _ hnot]
  readGroups beginning text bs hprefix h := by
    obtain ⟨body, pad, rfl, hspells⟩ := Base64.decode?_eq_some_iff.1 h
    have hlen := hspells.packs.length
    have hle := hprefix.length_le
    rw [List.length_map] at hlen
    rw [List.length_append] at hle
    omega

end TextCodec

namespace Draft

open Transaction TextCodec

variable {codec : TextCodec} {d : Draft} {text bs : Bytes}

theorem decodeText_of_means (d : Draft) (h : codec.Means text bs) :
    d.decodeText codec text = d.decode bs := by
  rw [← readText_eq_ok_iff] at h
  rw [decodeText_eq, decode_eq, messageReadText, Transaction.decodeText, h]

theorem answer_decodeText_of_not_valid (d : Draft) (h : ¬codec.Valid text) :
    (d.decodeText codec text).answer = .error (.notText codec) := by
  rw [decodeText_eq, Transaction.decodeText, readText_of_not_valid h]
  rfl

theorem answer_encodeText (codec : TextCodec) (h : d.content.encode = .ok bs) :
    (d.encodeText codec).answer = .ok (writeText codec bs) := by
  rw [encodeText_eq, Transaction.encodeText, h]
  rfl

theorem decode_of_ok {t : Transaction} (d : Draft) (h : Transaction.decode bs = .ok t) :
    (d.decode bs).answer = .ok () ∧ (d.decode bs).after.content = t := by
  rw [decode_eq, h]
  exact ⟨rfl, rfl⟩

/-- A draft is read back from its texts, reading a text is reading the bytes that it stands for,
and base-58 text that can be read is written again. -/
structure Lossless (d : Draft) : Prop where
  readBack : ∀ codec bs, d.content.encode = .ok bs → Transaction.decode bs = .ok d.content →
    ∃ text, (d.encodeText codec).answer = .ok text ∧ ∀ other : Draft,
      (other.decodeText codec text).answer = .ok () ∧
      (other.decodeText codec text).after.content = d.content
  writtenAgain : ∀ text, (d.decodeText .base58 text).answer = .ok () →
    ((d.decodeText .base58 text).after.encodeText .base58).answer = .ok text
  refused : ∀ codec text, ¬codec.Valid text →
    FailsFor (d.decodeText codec text).answer .malformedLength
  read : ∀ codec text, codec.Valid text → ∃ bs, (∀ cs, codec.Means text cs ↔ cs = bs) ∧
    d.decodeText codec text = d.decode bs

theorem readBack_text (codec : TextCodec) (henc : d.content.encode = .ok bs)
    (hdec : Transaction.decode bs = .ok d.content) :
    ∃ text, (d.encodeText codec).answer = .ok text ∧ ∀ other : Draft,
      (other.decodeText codec text).answer = .ok () ∧
      (other.decodeText codec text).after.content = d.content := by
  refine ⟨writeText codec bs, answer_encodeText codec henc, fun other => ?_⟩
  rw [decodeText_of_means other (means_writeText codec bs)]
  exact decode_of_ok other hdec

theorem writtenAgain_text (h : (d.decodeText .base58 text).answer = .ok ()) :
    ((d.decodeText .base58 text).after.encodeText .base58).answer = .ok text := by
  have hvalid : base58.Valid text := by
    by_contra hnot
    rw [answer_decodeText_of_not_valid d hnot] at h
    cases h
  obtain ⟨bs, hmeans⟩ := valid_iff.1 hvalid
  rw [decodeText_of_means d hmeans] at h ⊢
  rcases ht : Transaction.decode bs with f | t
  · rw [decode_eq, ht] at h
    cases h
  · -- The bytes are the only wire form of what they are read as.
    have henc := (decode_eq_ok_iff.1 ht).2
    rw [← (decode_of_ok d ht).2] at henc
    rw [answer_encodeText .base58 henc, show writeText .base58 bs = Base58.textOf bs from
      means_writeText .base58 bs, hmeans]

theorem lossless (d : Draft) : d.Lossless where
  readBack codec _ henc hdec := readBack_text codec henc hdec
  writtenAgain _ h := writtenAgain_text h
  refused codec text h := ⟨_, answer_decodeText_of_not_valid d h, rfl⟩
  read codec text h := by
    obtain ⟨bs, hbs⟩ := valid_iff.1 h
    exact ⟨bs, fun cs => ⟨hbs.unique, fun hcs => hcs ▸ hbs⟩, decodeText_of_means d hbs⟩

end Draft

end OfflineTx
