import OfflineTx.Proofs.Extension
import OfflineTx.Proofs.RoundTrip
import OfflineTx.Proofs.Runs

/-!
# Slots filled anew

A call on a draft leaves a slot as it is, fills it, or makes it anew (`Marking.moves_step`). An
instruction that is appended makes all of them anew. So from then on slots that were not filled are
zero (`Marking.Marked.run`), and if no zero was given for a signature, those that were filled are
not (`Marking.Held.run`): the draft is signed once every slot was filled, and not before.
-/

namespace OfflineTx

open Signing

theorem Transaction.isSigned_iff {t : Transaction} : t.isSigned = true ↔
    t.signatures.length = t.message.required ∧
      ∀ i < t.message.required, t.signatures[i]? ≠ some (.zero 64) := by
  rw [isSigned, Bool.and_eq_true, slotsMatch_iff, List.all_eq_true]
  refine and_congr_right fun hlen => ?_
  constructor
  · intro h i _ hzero
    have hnot := h _ (List.mem_of_getElem? hzero)
    rw [FixedBytes.isZero_iff.2 rfl] at hnot
    cases hnot
  · intro h s hmem
    obtain ⟨i, hi⟩ := List.mem_iff_getElem?.1 hmem
    have hlt : i < t.message.required := by
      rw [← hlen]
      exact (List.getElem?_eq_some_iff.1 hi).1
    rw [Bool.not_eq_true', ← Bool.not_eq_true, FixedBytes.isZero_iff]
    rintro rfl
    exact h i hlt hi

/-- A draft, and the slots that were filled since they were last made anew. -/
structure Marking where
  draft : Draft
  filled : List Nat := []

namespace Marking

/-- The calls by which slots are filled or made anew, and those that only look at them. -/
inductive Call
  | sign (completeness : Completeness) (signers : List Signer)
  | overwrite (slot : Nat) (s : Signature)
  | append (ix : Instruction)
  | resetSlots
  | verify
  | encode

/-- What the call may fill a slot with. -/
def Call.Gives (s : Signature) : Call → Prop
  | .sign _ signers => ∃ signer ∈ signers, ∃ message, signer.sign message = some s
  | .overwrite _ new => s = new
  | _ => False

/-- The marking after a call, whatever is answered to it. An instruction that is refused leaves the
slots as they are. -/
def step (k : Marking) : Call → Marking
  | .sign completeness signers =>
    { draft := (k.draft.signWith completeness signers).after
      filled := (k.draft.content.signWith completeness signers).filled.map Prod.fst ++ k.filled }
  | .overwrite slot s =>
    { draft := { k.draft with signatures := k.draft.signatures.set slot s }
      filled := slot :: k.filled }
  | .append ix =>
    { draft := (k.draft.append ix).after
      filled := match (k.draft.append ix).answer with
        | .ok () => []
        | .error _ => k.filled }
  | .resetSlots => { draft := k.draft.resetSlots }
  | .verify => { k with draft := k.draft.verify.after }
  | .encode => { k with draft := k.draft.encode.after }

def run (k : Marking) (calls : List Call) : Marking :=
  calls.foldl step k

variable {k : Marking} {i : Nat}

/-- There are as many slots as the message requires. -/
def Fits (k : Marking) : Prop :=
  k.draft.content.signatures.length = k.draft.content.message.required

/-- What a call can do to a slot: leave it as it is, fill it, or make it anew. -/
inductive Moves (k : Marking) (i : Nat) (call : Call) (k' : Marking) : Prop
  | kept (hfilled : i ∈ k'.filled ↔ i ∈ k.filled)
      (hslot : k'.draft.content.signatures[i]? = k.draft.content.signatures[i]?)
  | filled (s : Signature) (hfilled : i ∈ k'.filled)
      (hslot : k'.draft.content.signatures[i]? = some s) (hs : call.Gives s)
  | cleared (hfilled : i ∉ k'.filled)
      (hslot : k'.draft.content.signatures[i]? = some (.zero 64))

theorem fits_step (h : k.Fits) (call : Call) : (k.step call).Fits ∧
    (k.step call).draft.content.message.required = k.draft.content.message.required := by
  cases call with
  | sign completeness signers =>
    change Fits { draft := (k.draft.signWith completeness signers).after } ∧
      (k.draft.signWith completeness signers).after.content.message.required = _
    rw [Fits, Draft.content_signWith, Transaction.message_signWith]
    exact ⟨Transaction.length_signWith h, rfl⟩
  | overwrite slot s => exact ⟨List.length_set.trans h, rfl⟩
  | append ix =>
    change Fits { draft := (k.draft.append ix).after } ∧
      (k.draft.append ix).after.content.message.required = _
    rw [Fits]
    rcases k.draft.append_cases ix with ⟨f, -, hafter⟩ | ⟨m, hm, -, hafter⟩
    · rw [hafter]
      exact ⟨h, rfl⟩
    · rw [hafter, (Message.append_eq_ok_iff.1 hm).2]
      exact ⟨Transaction.length_zeroSlots _, rfl⟩
  | resetSlots => exact ⟨Transaction.length_zeroSlots _, rfl⟩
  | verify =>
    change Fits { draft := k.draft.verify.after } ∧
      k.draft.verify.after.content.message.required = _
    rw [Fits, Draft.content_verify]
    exact ⟨h, rfl⟩
  | encode =>
    change Fits { draft := k.draft.encode.after } ∧
      k.draft.encode.after.content.message.required = _
    rw [Fits, Draft.content_encode]
    exact ⟨h, rfl⟩

theorem moves_sign (h : k.Fits) (completeness : Completeness) (signers : List Signer) :
    k.Moves i (.sign completeness signers) (k.step (.sign completeness signers)) := by
  have hcontent : (k.step (.sign completeness signers)).draft.content =
    (k.draft.content.signWith completeness signers).transaction := Draft.content_signWith
  rcases k.draft.content.signWith_cases completeness signers with
    ⟨f, heq⟩ | ⟨message, hslots, henc⟩
  · refine .kept ?_ (by rw [hcontent, heq])
    simp only [step, heq, List.map_nil, List.nil_append]
  · rw [Transaction.signWith_eq hslots henc] at hcontent
    have hfilled : (k.step (.sign completeness signers)).filled =
        (k.draft.content.filling message signers).filled.map Prod.fst ++ k.filled := by
      simp only [step, Transaction.signWith_eq hslots henc]
    have hcases := fill_cases message 0 (k.draft.content.row signers)
      k.draft.content.fitted.signatures i
    rw [Nat.zero_add] at hcases
    rcases hcases with ⟨hnot, hkept⟩ | ⟨hmem, slot, signer, s, hslot, hsigner, hs, hheld⟩
    · refine .kept ?_ ?_
      · rw [hfilled, List.mem_append]
        exact or_iff_right hnot
      · rw [hcontent]
        exact hkept.trans (by rw [Transaction.fitted_of_length h])
    · refine .filled s ?_ ?_ ?_
      · rw [hfilled]
        exact List.mem_append_left _ hmem
      · rw [hcontent]
        exact hheld
      · exact ⟨signer, ((Transaction.slot_of_row hslot).2 signer hsigner).1, message, hs⟩

theorem moves_step (h : k.Fits) (call : Call) (hi : i < k.draft.content.message.required) :
    k.Moves i call (k.step call) := by
  have hlt : i < k.draft.signatures.length := Nat.lt_of_lt_of_eq hi h.symm
  cases call with
  | sign completeness signers => exact moves_sign h completeness signers
  | overwrite slot s =>
    by_cases hslot : slot = i
    · subst hslot
      exact .filled s List.mem_cons_self (List.getElem?_set_self hlt) rfl
    · refine .kept ?_ (List.getElem?_set_ne hslot)
      simp only [step, List.mem_cons, Ne.symm hslot, false_or]
  | append ix =>
    rcases k.draft.append_cases ix with ⟨f, hanswer, hafter⟩ | ⟨m, hm, hanswer, hafter⟩
    · refine .kept ?_ (by rw [step, hafter])
      simp only [step, hanswer]
    · refine .cleared ?_ ?_
      · simp only [step, hanswer, List.not_mem_nil, not_false_iff]
      · obtain ⟨-, rfl⟩ := Message.append_eq_ok_iff.1 hm
        rw [step, hafter]
        exact List.getElem?_replicate_of_lt hi
  | resetSlots => exact .cleared List.not_mem_nil (List.getElem?_replicate_of_lt hi)
  | verify => exact .kept Iff.rfl (by rw [step, Draft.content_verify])
  | encode => exact .kept Iff.rfl (by rw [step, Draft.content_encode])

/-- Slots that were not filled are zero. -/
structure Marked (k : Marking) : Prop where
  fits : k.Fits
  zero : ∀ i < k.draft.content.message.required, i ∉ k.filled →
    k.draft.content.signatures[i]? = some (.zero 64)

theorem Marked.step (h : k.Marked) (call : Call) : (k.step call).Marked := by
  obtain ⟨hfits, hreq⟩ := fits_step h.fits call
  refine ⟨hfits, fun i hi hnot => ?_⟩
  rw [hreq] at hi
  rcases moves_step h.fits call hi with ⟨hfilled, hslot⟩ | ⟨s, hfilled, -, -⟩ | ⟨-, hslot⟩
  · rw [hslot]
    exact h.zero i hi fun hmem => hnot (hfilled.2 hmem)
  · exact absurd hfilled hnot
  · exact hslot

/-- Slots that were filled are not zero. -/
structure Held (k : Marking) : Prop where
  fits : k.Fits
  nonzero : ∀ i < k.draft.content.message.required, i ∈ k.filled →
    k.draft.content.signatures[i]? ≠ some (.zero 64)

theorem Held.step (h : k.Held) (call : Call) (hcall : ¬call.Gives (.zero 64)) :
    (k.step call).Held := by
  obtain ⟨hfits, hreq⟩ := fits_step h.fits call
  refine ⟨hfits, fun i hi hmem hzero => ?_⟩
  rw [hreq] at hi
  rcases moves_step h.fits call hi with ⟨hfilled, hslot⟩ | ⟨s, -, hslot, hs⟩ | ⟨hnot, -⟩
  · exact h.nonzero i hi (hfilled.1 hmem) (hslot.symm.trans hzero)
  · obtain rfl : s = .zero 64 := Option.some.inj (hslot.symm.trans hzero)
    exact hcall hs
  · exact hnot hmem

theorem required_run : ∀ (calls : List Call) {k : Marking}, k.Fits →
    (k.run calls).draft.content.message.required = k.draft.content.message.required
  | [], _, _ => rfl
  | call :: calls, _, h => by
    obtain ⟨hfits, hreq⟩ := fits_step h call
    exact (required_run calls hfits).trans hreq

theorem Marked.run : ∀ (calls : List Call) {k : Marking}, k.Marked → (k.run calls).Marked
  | [], _, h => h
  | call :: calls, _, h => Marked.run calls (h.step call)

theorem Held.run : ∀ (calls : List Call) {k : Marking}, k.Held →
    (∀ call ∈ calls, ¬call.Gives (.zero 64)) → (k.run calls).Held
  | [], _, h, _ => h
  | call :: calls, _, h, hcalls =>
    Held.run calls (h.step call (hcalls call List.mem_cons_self)) fun other hother =>
      hcalls other (List.mem_cons_of_mem _ hother)

/-- A transaction is signed only if every slot was filled. -/
theorem Marked.mem_filled (h : k.Marked) (hsigned : k.draft.content.isSigned = true)
    (hi : i < k.draft.content.message.required) : i ∈ k.filled := by
  by_cases hmem : i ∈ k.filled
  · exact hmem
  · exact absurd (h.zero i hi hmem) ((Transaction.isSigned_iff.1 hsigned).2 i hi)

theorem Held.isSigned (h : k.Held)
    (hfilled : ∀ i < k.draft.content.message.required, i ∈ k.filled) :
    k.draft.content.isSigned = true :=
  Transaction.isSigned_iff.2 ⟨h.fits, fun i hi => h.nonzero i hi (hfilled i hi)⟩

/-- A draft that was just appended to, of which no slot was filled. -/
theorem marked_append {d : Draft} {ix : Instruction} (h : (d.append ix).answer = .ok ()) :
    Marked { draft := (d.append ix).after } ∧ Held { draft := (d.append ix).after } ∧
      (d.append ix).after.content.message.required = d.content.message.required := by
  rcases d.append_cases ix with ⟨f, hf, -⟩ | ⟨m, hm, -, hafter⟩
  · rw [h] at hf
    cases hf
  · obtain ⟨-, rfl⟩ := Message.append_eq_ok_iff.1 hm
    have hfits : Fits { draft := (d.append ix).after } := by
      rw [Fits, hafter]
      exact Transaction.length_zeroSlots _
    refine ⟨⟨hfits, fun i hi _ => ?_⟩, ⟨hfits, fun i _ hmem => absurd hmem List.not_mem_nil⟩, ?_⟩
    · rw [hafter] at hi ⊢
      exact List.getElem?_replicate_of_lt hi
    · rw [hafter]
      rfl

end Marking

end OfflineTx
