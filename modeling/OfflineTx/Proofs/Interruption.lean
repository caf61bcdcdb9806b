import OfflineTx.Proofs.Cosigning

/-!
# Signing that fails

Signing that fails before a signer is asked changes nothing. A signer that does not answer ends the
filling at the slot of its account: the slots before it that have a signer hold the answers by then,
and those from it on are as they were (`Halted`). The message stays in every case. So a call that
fails changes the transaction only through the answers before the failure, and leaves it as it was
exactly if these stood in their slots already (`unchanged_iff_of_failed`).
-/

namespace OfflineTx

open Signing

section Filling

variable {message : Bytes} {slot : Slot} {slots : List Slot} {signature s : Signature}
  {old new : List Signature} {k : Nat} {a : Address}

/-- Filling ended at the slot `k`, whose signer does not answer. The slots before it are filled, and
those from it on are as they were. -/
structure Halted (message : Bytes) (slots : List Slot) (old new : List Signature) (k : Nat)
    (a : Address) : Prop where
  refused : ∃ slot signer, slots[k]? = some slot ∧ slot.address = a ∧
    slot.signer? = some signer ∧ signer.sign message = none
  filled : ∀ j < k, ∀ slot signer, slots[j]? = some slot → slot.signer? = some signer →
    ∃ s, signer.sign message = some s ∧ new[j]? = some s
  skipped : ∀ j < k, ∀ slot, slots[j]? = some slot → slot.signer? = none → new[j]? = old[j]?
  kept : ∀ j, k ≤ j → new[j]? = old[j]?

/-- One more slot in front, which is passed over or filled. -/
theorem Halted.cons (h : Halted message slots old new k a)
    (hfilled : ∀ signer, slot.signer? = some signer → signer.sign message = some s)
    (hskipped : slot.signer? = none → s = signature) :
    Halted message (slot :: slots) (signature :: old) (s :: new) (k + 1) a where
  refused := h.refused
  filled
    | 0, _, _, _, hslot, hsigner => by
      cases hslot
      exact ⟨s, hfilled _ hsigner, rfl⟩
    | j + 1, hj, slot, signer, hslot, hsigner =>
      h.filled j (Nat.lt_of_succ_lt_succ hj) slot signer hslot hsigner
  skipped
    | 0, _, _, hslot, hnone => by
      cases hslot
      rw [hskipped hnone]
      rfl
    | j + 1, hj, slot, hslot, hnone => h.skipped j (Nat.lt_of_succ_lt_succ hj) slot hslot hnone
  kept
    | j + 1, hj => h.kept j (Nat.le_of_succ_le_succ hj)

theorem halted_of_failed : ∀ (i : Nat) (slots : List Slot) (old : List Signature),
    (fill message i slots old).failed = some a →
      ∃ k < old.length, Halted message slots old (fill message i slots old).signatures k a
  | _, [], _, h => by simp at h
  | _, _ :: _, [], h => by simp at h
  | i, slot :: slots, signature :: old, h => by
    have ih := halted_of_failed (i + 1) slots old
    rcases hsigner : slot.signer? with _ | signer
    · rw [fill_skipped hsigner] at h ⊢
      obtain ⟨k, hk, hhalted⟩ := ih h
      refine ⟨k + 1, Nat.succ_lt_succ hk, hhalted.cons (fun signer hsome => ?_) fun _ => rfl⟩
      rw [hsigner] at hsome
      cases hsome
    · rcases hs : signer.sign message with _ | s
      · rw [fill_failed hsigner hs] at h ⊢
        refine ⟨0, Nat.succ_pos _, ⟨slot, signer, rfl, Option.some.inj h, hsigner, hs⟩, ?_, ?_, ?_⟩
        · exact fun j hj => absurd hj (Nat.not_lt_zero j)
        · exact fun j hj => absurd hj (Nat.not_lt_zero j)
        · exact fun _ _ => rfl
      · rw [fill_filled hsigner hs] at h ⊢
        obtain ⟨k, hk, hhalted⟩ := ih h
        refine ⟨k + 1, Nat.succ_lt_succ hk, hhalted.cons (fun other hother => ?_) fun hnone => ?_⟩
        · obtain rfl : signer = other := Option.some.inj (hsigner.symm.trans hother)
          exact hs
        · rw [hsigner] at hnone
          cases hnone

end Filling

namespace Transaction

variable {t : Transaction} {completeness : Completeness} {signers : List Signer}
  {message : Bytes} {f : Fault} {i : Nat} {a : Address}

/-- The signer at hand for the account `i` does not answer the message. The slots of the accounts
before it that have a signer hold the answers, and all others are as they were, or zero if the slots
did not match the header. -/
structure Interrupted (t : Transaction) (signers : List Signer) (message : Bytes) (i : Nat)
    (a : Address) (u : Transaction) : Prop where
  encoded : t.message.encode = .ok message
  account : i < t.message.required ∧ t.message.keys[i]? = some a
  refused : ∃ signer, signers.find? (·.address == a) = some signer ∧ signer.sign message = none
  message_eq : u.message = t.message
  length_eq : u.signatures.length = t.message.required
  signed : ∀ j < i, ∀ b signer, t.message.keys[j]? = some b →
    signers.find? (·.address == b) = some signer →
      ∃ s, signer.sign message = some s ∧ u.signatures[j]? = some s
  passedOver : ∀ j < i, ∀ b, t.message.keys[j]? = some b →
    signers.find? (·.address == b) = none → u.signatures[j]? = t.fitted.signatures[j]?
  behind : ∀ j, i ≤ j → u.signatures[j]? = t.fitted.signatures[j]?

theorem interrupted_of_halted {new : List Signature} (henc : t.message.encode = .ok message)
    (hi : i < t.message.required) (hlen : new.length = t.message.required)
    (h : Halted message (t.row signers) t.fitted.signatures new i a) :
    t.Interrupted signers message i a { signatures := new, message := t.message } := by
  obtain ⟨slot, signer, hslot, rfl, hsigner, hs⟩ := h.refused
  obtain ⟨hkey, -⟩ := slot_of_row hslot
  rw [getElem?_row hi hkey, Option.some.injEq] at hslot
  rw [← hslot] at hsigner
  refine ⟨henc, ⟨hi, hkey⟩, ⟨signer, hsigner, hs⟩, rfl, hlen, fun j hj b found hb hfind => ?_,
    fun j hj b hb hnone => ?_, h.kept⟩
  · exact h.filled j hj _ found (getElem?_row (Nat.lt_trans hj hi) hb) hfind
  · exact h.skipped j hj _ (getElem?_row (Nat.lt_trans hj hi) hb) hnone

/-- Signing that fails stops before any slot is touched or is interrupted at a signer. -/
theorem signWith_failed_cases (h : (t.signWith completeness signers).answer = .error f) :
    ((∀ a, f ≠ .signingFailed a) ∧ (t.signWith completeness signers).transaction = t) ∨
      ∃ a message i, f = .signingFailed a ∧
        t.Interrupted signers message i a (t.signWith completeness signers).transaction := by
  rcases hslots : t.slots completeness signers with g | slots
  · have hg : ∀ a, g ≠ .signingFailed a := by
      rintro a rfl
      rw [slots_eq] at hslots
      split at hslots
      · cases hslots
      · split at hslots <;> cases hslots
    have heq : t.signWith completeness signers = ⟨.error g, t, []⟩ := by rw [signWith, hslots]
    rw [heq] at h ⊢
    exact .inl ⟨Except.error.inj h ▸ hg, rfl⟩
  obtain ⟨-, -, rfl⟩ := slots_eq_ok_iff.1 hslots
  rcases henc : t.message.encode with g | message
  · have hg : ∀ a, g ≠ .signingFailed a := by
      rintro a rfl
      unfold Message.encode at henc
      split at henc <;> cases henc
    have heq : t.signWith completeness signers = ⟨.error g, t, []⟩ := by
      simp only [signWith, hslots, henc]
    rw [heq] at h ⊢
    exact .inl ⟨Except.error.inj h ▸ hg, rfl⟩
  -- From here on the slots are filled, which only a signer can stop.
  rw [signWith_eq hslots henc] at h ⊢
  rcases hfailed : (t.filling message signers).failed with _ | a
  · simp only [hfailed, reduceCtorEq] at h
  · simp only [hfailed, Except.error.injEq] at h
    obtain ⟨i, hi, hhalted⟩ := halted_of_failed 0 _ _ hfailed
    rw [length_fitted] at hi
    exact .inr ⟨a, message, i, h.symm, interrupted_of_halted henc hi length_filling hhalted⟩

/-- An interruption leaves the transaction as it was if the slots matched the header and those of
the accounts before held the answers already. -/
theorem Interrupted.unchanged_iff {u : Transaction} (h : t.Interrupted signers message i a u) :
    u = t ↔ t.slotsMatch = true ∧ ∀ j < i, ∀ b signer s, t.message.keys[j]? = some b →
      signers.find? (·.address == b) = some signer → signer.sign message = some s →
        t.signatures[j]? = some s := by
  constructor
  · rintro rfl
    refine ⟨?_, fun j hj b signer s hb hfind hs => ?_⟩
    · rw [slotsMatch, h.length_eq]
      exact beq_self_eq_true _
    · obtain ⟨s', hs', hheld⟩ := h.signed j hj b signer hb hfind
      rw [hheld, ← hs', hs]
  · rintro ⟨hmatch, hheld⟩
    have hfitted : t.fitted = t := if_pos hmatch
    have hslots : u.signatures = t.signatures := by
      refine List.ext_getElem? fun j => ?_
      rcases Nat.lt_or_ge j i with hj | hj
      · have hlt : j < t.message.keys.length :=
          Nat.lt_trans hj (List.getElem?_eq_some_iff.1 h.account.2).1
        have hb := List.getElem?_eq_getElem hlt
        rcases hfind : signers.find? (·.address == t.message.keys[j]) with _ | signer
        · rw [h.passedOver j hj _ hb hfind, hfitted]
        · obtain ⟨s, hs, hu⟩ := h.signed j hj _ signer hb hfind
          rw [hu, hheld j hj _ signer s hb hfind hs]
      · rw [h.behind j hj, hfitted]
    have hmessage := h.message_eq
    cases u
    cases t
    exact (Transaction.mk.injEq ..).mpr ⟨hslots, hmessage⟩

end Transaction

namespace Draft

variable {d : Draft} {completeness : Completeness} {signers : List Signer} {f : Fault}

/-- Signing that fails leaves the message, and for any reason but a signer that does not answer it
leaves the slots too. A signer that does not answer leaves what was signed before, which changes
nothing only if it had been signed in the same way already. -/
theorem unchanged_iff_of_failed (h : (d.signWith completeness signers).answer = .error f) :
    (d.signWith completeness signers).after.content.message = d.content.message ∧
      ((∀ a, f ≠ .signingFailed a) →
        (d.signWith completeness signers).after.content = d.content) ∧
      ∀ a, f = .signingFailed a → ∃ message i,
        d.content.Interrupted signers message i a
          (d.signWith completeness signers).after.content ∧
        ((d.signWith completeness signers).after.content = d.content ↔
          d.content.slotsMatch = true ∧ ∀ j < i, ∀ b signer s,
            d.content.message.keys[j]? = some b →
              signers.find? (·.address == b) = some signer → signer.sign message = some s →
                d.content.signatures[j]? = some s) := by
  rw [answer_signWith] at h
  rw [content_signWith]
  refine ⟨Transaction.message_signWith, fun hf => ?_, ?_⟩
  · rcases Transaction.signWith_failed_cases h with ⟨-, heq⟩ | ⟨a, _, _, hfa, -⟩
    · exact heq
    · exact absurd hfa (hf a)
  · rintro a rfl
    rcases Transaction.signWith_failed_cases h with ⟨hf, -⟩ | ⟨b, message, i, hfb, hinterrupted⟩
    · exact absurd rfl (hf a)
    · obtain rfl : a = b := by simpa using hfb
      exact ⟨message, i, hinterrupted, hinterrupted.unchanged_iff⟩

/-- The first of two signers answers and the second does not. -/
theorem unchanged_iff_of_failed_shared :
    let payer : Signer := { address := .padded 32 [1], sign := fun _ => some (.padded 64 [3]) }
    let owner : Signer := { address := .padded 32 [2], sign := fun _ => none }
    let d : Draft := .ofMessage shared.content.message
    (d.partialSign [payer, owner]).answer = .error (.signingFailed (.padded 32 [2])) ∧
      ∃ message i, d.content.Interrupted [payer, owner] message i (.padded 32 [2])
        (d.partialSign [payer, owner]).after.content := by
  intro payer owner d
  have hanswer :
      (d.partialSign [payer, owner]).answer = .error (.signingFailed (.padded 32 [2])) := by
    rw [partialSign, answer_signWith]
    rfl
  obtain ⟨message, i, hinterrupted, -⟩ := (unchanged_iff_of_failed hanswer).2.2 _ rfl
  exact ⟨hanswer, message, i, hinterrupted⟩

/-- A call that fails leaves a signature behind. -/
theorem partialSign_fails_and_signs :
    let payer : Signer := { address := .padded 32 [1], sign := fun _ => some (.padded 64 [3]) }
    let owner : Signer := { address := .padded 32 [2], sign := fun _ => none }
    let d : Draft := .ofMessage shared.content.message
    (d.partialSign [payer, owner]).answer = .error (.signingFailed (.padded 32 [2])) ∧
      d.signatures = [.zero 64, .zero 64] ∧
      (d.partialSign [payer, owner]).after.signatures = [.padded 64 [3], .zero 64] := by
  intro payer owner d
  refine ⟨?_, rfl, ?_⟩
  · rw [partialSign, answer_signWith]
    rfl
  · rw [← signatures_content, partialSign, content_signWith]
    rfl

end Draft

end OfflineTx
