import OfflineTx.Proofs.Refilling
import OfflineTx.Proofs.Survival

/-!
# Signing, verification and the wire

A transaction is verified if it has a slot for each account that has to sign, and each holds a
signature of the encoded message by its account (`verify_eq_ok_iff`). The encoded message is what
follows the signatures on the wire. So if signers answer to it with signatures of their own, what
they have signed is verified, and still is when it was written and read back (`accepted_sign`).
After an instruction was appended no signature is left, and the transaction is not signed before
each slot was filled anew. All this holds of every draft (`agrees`).
-/

namespace OfflineTx

namespace Transaction

variable {t : Transaction} {bs : Bytes} {signers : List Signer}

section Verify

theorem rejected?_eq_none_iff {addresses : List Address} {signatures : List Signature} :
    rejected? bs addresses signatures = none ↔ ∀ (i : Nat) (a : Address) (s : Signature),
      addresses[i]? = some a → signatures[i]? = some s → Ed25519.verify s bs a = true := by
  rw [rejected?, Option.map_eq_none_iff, List.find?_eq_none]
  constructor
  · intro h i a s ha hs
    have hmem : (a, s) ∈ addresses.zip signatures :=
      List.mem_of_getElem? (List.getElem?_zip_eq_some.2 ⟨ha, hs⟩ : _ = some (a, s))
    simpa using h _ hmem
  · rintro h ⟨a, s⟩ hmem
    obtain ⟨i, hi⟩ := List.mem_iff_getElem?.1 hmem
    obtain ⟨ha, hs⟩ := List.getElem?_zip_eq_some.1 hi
    simp [h i a s ha hs]

/-- There is a slot for each account that has to sign, and it holds a signature of the encoded
message by the account. -/
structure Verified (t : Transaction) (bs : Bytes) : Prop where
  length_eq : t.signatures.length = t.message.required
  required_le : t.message.required ≤ t.message.keys.length
  encoded : t.message.encode = .ok bs
  accepted : ∀ (i : Nat) (a : Address) (s : Signature), t.message.keys[i]? = some a →
    t.signatures[i]? = some s → Ed25519.verify s bs a = true

theorem slotsFit_iff : t.slotsFit = true ↔
    t.signatures.length = t.message.required ∧ t.message.required ≤ t.message.keys.length := by
  rw [slotsFit, Bool.and_eq_true, slotsMatch_iff, decide_eq_true_eq]
  constructor
  · exact fun ⟨h, hle⟩ => ⟨h, h ▸ hle⟩
  · exact fun ⟨h, hle⟩ => ⟨h, h ▸ hle⟩

theorem verify_eq_ok_iff : t.verify = .ok () ↔ ∃ bs, t.Verified bs := by
  unfold verify
  split
  · rename_i hfit
    obtain ⟨hlen, hle⟩ := slotsFit_iff.1 hfit
    rcases henc : t.message.encode with f | bs
    · simp only [reduceCtorEq, false_iff, not_exists]
      intro bs h
      have hencoded := h.encoded
      rw [henc] at hencoded
      cases hencoded
    · dsimp only
      rcases hrejected : rejected? bs t.message.keys t.signatures with _ | a
      · simp only [true_iff]
        exact ⟨bs, hlen, hle, henc, rejected?_eq_none_iff.1 hrejected⟩
      · simp only [reduceCtorEq, false_iff, not_exists]
        intro bs' h
        obtain rfl : bs = bs' := Except.ok.inj (henc.symm.trans h.encoded)
        rw [rejected?_eq_none_iff.2 h.accepted] at hrejected
        cases hrejected
  · rename_i hfit
    simp only [reduceCtorEq, false_iff, not_exists]
    exact fun bs h => hfit (slotsFit_iff.2 ⟨h.length_eq, h.required_le⟩)

end Verify

end Transaction

/-- What the signer answers to the message, if anything, is a signature of it by the signer's
address, and not zero. -/
def Signer.Genuine (signer : Signer) (message : Bytes) : Prop :=
  ∀ s, signer.sign message = some s →
    s ≠ .zero 64 ∧ Ed25519.verify s message signer.address = true

namespace Transaction

variable {t : Transaction} {bs : Bytes} {signers : List Signer}

/-- After signing in full, each slot holds what a signer for its account answered. -/
theorem exists_signer_of_sign (h : (t.signWith .full signers).answer = .ok ())
    (henc : t.message.encode = .ok bs) {i : Nat} {a : Address} {s : Signature}
    (hs : (t.signWith .full signers).transaction.signatures[i]? = some s)
    (ha : t.message.keys[i]? = some a) :
    ∃ signer ∈ signers, signer.address = a ∧ signer.sign bs = some s := by
  have hi : i < t.message.required := by
    rw [← length_of_signWith h]
    exact (List.getElem?_eq_some_iff.1 hs).1
  have hslots := (answer_signWith_eq_ok_iff.1 h).1
  have hcovers := (slots_eq_ok_iff.1 hslots).2.1 rfl
  have hmem : a ∈ t.requiredAddresses :=
    List.mem_of_getElem? (by rwa [requiredAddresses, List.getElem?_take_of_lt hi])
  obtain ⟨signer, hfind⟩ :=
    Option.isSome_iff_exists.1 (isSome_find?_iff.2 (hcovers a hmem))
  rw [getElem?_signWith h henc hi ha, hfind] at hs
  exact ⟨signer, List.mem_of_find?_eq_some hfind, by simpa using List.find?_some hfind, hs⟩

/-- What genuine signers have signed in full is signed and verified. -/
theorem verified_signWith (h : (t.signWith .full signers).answer = .ok ())
    (henc : t.message.encode = .ok bs) (hgen : ∀ signer ∈ signers, signer.Genuine bs) :
    (t.signWith .full signers).transaction.isSigned = true ∧
      (t.signWith .full signers).transaction.Verified bs := by
  have hlen := length_of_signWith h
  have hreq := (slots_eq_ok_iff.1 (answer_signWith_eq_ok_iff.1 h).1).1
  refine ⟨isSigned_iff.2 ⟨?_, ?_⟩, ?_, ?_, ?_, ?_⟩ <;> rw [message_signWith]
  · exact hlen
  · intro i hi hzero
    obtain ⟨a, ha⟩ : ∃ a, t.message.keys[i]? = some a :=
      ⟨_, List.getElem?_eq_getElem (Nat.lt_of_lt_of_le hi hreq)⟩
    obtain ⟨signer, hmem, -, hs⟩ := exists_signer_of_sign h henc hzero ha
    exact (hgen signer hmem _ hs).1 rfl
  · exact hlen
  · exact hreq
  · exact henc
  · intro i a s ha hs
    obtain ⟨signer, hmem, rfl, hs⟩ := exists_signer_of_sign h henc hs ha
    exact (hgen signer hmem s hs).2

end Transaction

namespace Draft

variable {d : Draft} {signers : List Signer} {bs : Bytes}

/-- The draft is signed, and verifies. -/
structure Accepted (d : Draft) : Prop where
  isSigned : d.content.isSigned = true
  verify : d.verify.answer = .ok ()

theorem encode_eq_ok_iff {whole : Bytes} : d.encode.answer = .ok whole ↔
    d.content.slotsMatch = true ∧ ∃ bs, d.content.message.encode = .ok bs ∧
      whole = Transaction.signaturesWire d.signatures ++ bs := by
  rw [answer_encode, Transaction.encode_eq_ok_iff, Transaction.slotsMatch_iff]
  refine and_congr_right fun _ => ?_
  constructor
  · rintro ⟨hcount, rfl⟩
    exact ⟨_, Message.encode_eq_ok_iff.2 ⟨hcount, rfl⟩, rfl⟩
  · rintro ⟨bs, henc, rfl⟩
    obtain ⟨hcount, rfl⟩ := Message.encode_eq_ok_iff.1 henc
    exact ⟨hcount, rfl⟩

/-- What genuine signers have signed in full is accepted, and so is what is read of its bytes. -/
theorem accepted_sign (hcons : d.content.message.Consistent)
    (hgen : ∀ bs, d.content.message.encode = .ok bs → ∀ signer ∈ signers, signer.Genuine bs)
    (h : (d.sign signers).answer = .ok ()) :
    (d.sign signers).after.Accepted ∧ ∃ whole,
      (d.sign signers).after.encode.answer = .ok whole ∧ ∀ other : Draft,
        (other.decode whole).answer = .ok () ∧ (other.decode whole).after.Accepted := by
  rw [sign, answer_signWith] at h
  obtain ⟨-, bs, henc, -⟩ := Transaction.answer_signWith_eq_ok_iff.1 h
  have hcontent : (d.sign signers).after.content =
      (d.content.signWith .full signers).transaction := content_signWith
  obtain ⟨hsigned, hverified⟩ := Transaction.verified_signWith h henc (hgen bs henc)
  rw [← hcontent] at hsigned hverified
  have haccepted : ∀ e : Draft, e.content = (d.sign signers).after.content → e.Accepted := by
    intro e he
    refine ⟨he ▸ hsigned, ?_⟩
    rw [answer_verify, he]
    exact Transaction.verify_eq_ok_iff.2 ⟨bs, hverified⟩
  have hsound : (d.sign signers).after.content.Sound := by
    rw [hcontent]
    refine ⟨?_, ?_, ?_⟩ <;> rw [Transaction.message_signWith]
    · exact Transaction.length_of_signWith h
    · exact hcons
    · exact (Message.encode_eq_ok_iff.1 henc).1
  obtain ⟨whole, hwhole, -, hread⟩ := survives_of_sound hsound
  exact ⟨haccepted _ rfl, whole, hwhole, fun other =>
    ⟨(hread other).1, haccepted _ (hread other).2⟩⟩

/-- Signer, verifier, encoder and decoder agree on the slots of the draft and on the bytes that are
signed, and an instruction that is appended leaves no slot filled. -/
structure Agrees (d : Draft) : Prop where
  verify_iff : d.verify.answer = .ok () ↔ ∃ bs, d.content.Verified bs
  encode_iff : ∀ whole, d.encode.answer = .ok whole ↔
    d.content.slotsMatch = true ∧ ∃ bs, d.content.message.encode = .ok bs ∧
      whole = Transaction.signaturesWire d.signatures ++ bs
  sign : ∀ signers : List Signer, d.content.message.Consistent →
    (∀ bs, d.content.message.encode = .ok bs → ∀ signer ∈ signers, signer.Genuine bs) →
      (d.sign signers).answer = .ok () →
        (d.sign signers).after.Accepted ∧ ∃ whole,
          (d.sign signers).after.encode.answer = .ok whole ∧ ∀ other : Draft,
            (other.decode whole).answer = .ok () ∧ (other.decode whole).after.Accepted
  append : ∀ ix : Instruction, (d.append ix).answer = .ok () → 0 < d.content.message.required →
    (d.append ix).after.content.isSigned = false
  refill : ∀ (ix : Instruction) (calls : List Marking.Call), (d.append ix).answer = .ok () →
    let k := Marking.run { draft := (d.append ix).after } calls
    (k.draft.content.isSigned = true → ∀ i < d.content.message.required, i ∈ k.filled) ∧
      ((∀ call ∈ calls, ¬call.Gives (.zero 64)) →
        (∀ i < d.content.message.required, i ∈ k.filled) → k.draft.content.isSigned = true)

theorem agrees (d : Draft) : d.Agrees where
  verify_iff := d.answer_verify ▸ Transaction.verify_eq_ok_iff
  encode_iff _ := encode_eq_ok_iff
  sign _ hcons hgen h := accepted_sign hcons hgen h
  append ix h hpos := by
    obtain ⟨hmarked, -, hreq⟩ := Marking.marked_append h
    rw [← hreq] at hpos
    rw [← Bool.not_eq_true]
    exact fun hsigned => absurd (hmarked.mem_filled hsigned hpos) List.not_mem_nil
  refill ix calls h := by
    obtain ⟨hmarked, hheld, hreq⟩ := Marking.marked_append h
    have hrun := Marking.required_run calls hmarked.fits
    rw [← hreq, ← hrun]
    exact ⟨fun hsigned i hi => (hmarked.run calls).mem_filled hsigned hi,
      fun hcalls => (hheld.run calls hcalls).isSigned⟩

/-- The key pair of the zero secret. -/
def payer : KeyPair where
  secret := .zero 32
  address := ⟨[59, 106, 39, 188, 206, 182, 164, 45, 98, 163, 168, 208, 42, 111, 13, 115, 101, 50, 21,
    119, 29, 226, 67, 166, 58, 192, 72, 161, 139, 89, 218, 41], rfl⟩

/-- The payer alone has to sign. -/
def paid : Draft :=
  .ofMessage { header := { required := 1 }, keys := [payer.address] }

theorem agrees_paid :
    paid.content.message.Consistent ∧ (paid.sign [payer.signer]).answer = .ok () ∧
      (paid.sign [payer.signer]).after.Accepted ∧
      ((paid.sign [payer.signer]).after.append { program := .zero 32 }).answer = .ok () ∧
      ((paid.sign [payer.signer]).after.append { program := .zero 32 }).after.content.isSigned =
        false := by
  have hcons : paid.content.message.Consistent :=
    ⟨by decide, by decide, by decide, nofun, nofun, fun _ => ⟨rfl, by decide⟩⟩
  have hgen : ∀ bs, paid.content.message.encode = .ok bs →
      ∀ signer ∈ [payer.signer], signer.Genuine bs := by
    intro bs hbs signer hmem s hs
    obtain rfl := Except.ok.inj hbs
    obtain rfl := List.mem_singleton.1 hmem
    obtain rfl := Option.some.inj hs
    decide +kernel
  have hsign : (paid.sign [payer.signer]).answer = .ok () := rfl
  have happend : ((paid.sign [payer.signer]).after.append { program := .zero 32 }).answer =
      .ok () := rfl
  exact ⟨hcons, hsign, ((agrees paid).sign _ hcons hgen hsign).1, happend,
    (agrees _).append _ happend (by decide)⟩

end Draft

end OfflineTx
