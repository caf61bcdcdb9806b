import OfflineTx.Proofs.Calls
import OfflineTx.Proofs.Signing

/-!
# Runs of calls

A builder and a draft are worked on by calls, some of which fail. A draft that was built or
appended to has zero slots, a call that fails leaves the message as it is (`build_cases`,
`append_cases`), and signing changes the slots alone. So after any run of calls no slot holds an
answer to a message other than the one there is (`fresh_run`).
-/

namespace OfflineTx

namespace Draft

variable {d : Draft} {completeness : Completeness} {signers : List Signer}

theorem content_signWith : (d.signWith completeness signers).after.content =
    (d.content.signWith completeness signers).transaction := by
  have hmessage : (d.content.signWith completeness signers).transaction.message =
      d.content.message := Transaction.message_signWith
  rw [signWith_eq]
  exact congrArg (Transaction.mk _) ((value_messageWritten d _).trans hmessage.symm)

/-- An instruction is refused and the content stays, or it is appended and the slots are zero. -/
theorem append_cases (d : Draft) (ix : Instruction) :
    (∃ f, (d.append ix).answer = .error f ∧ (d.append ix).after.content = d.content) ∨
      ∃ m, d.content.message.append ix = .ok m ∧ (d.append ix).answer = .ok () ∧
        (d.append ix).after.content = { signatures := Transaction.zeroSlots m, message := m } := by
  rw [append_eq]
  rcases d.content.message.append ix with f | m
  · exact .inl ⟨f, rfl, rfl⟩
  · exact .inr ⟨m, rfl, rfl, rfl⟩

end Draft

namespace Builder

/-- A build fails and leaves the draft, or it makes a draft of the message that its compiler gives,
with zero slots. -/
theorem build_cases (b : Builder) (version : Version) (d : Draft) :
    (∃ f, (b.build version d).answer = .error f ∧ (b.build version d).after.2 = d) ∨
      ∃ feePayer recentHash ixs m,
        (b.compiler.compile version feePayer recentHash ixs).answer = .ok m ∧
        (b.build version d).answer = .ok () ∧ (b.build version d).after.2 = .ofMessage m := by
  rcases hinputs : b.inputs with f | ⟨feePayer, recentHash, ixs⟩
  · rw [build_of_inputs_error hinputs]
    exact .inl ⟨f, rfl, rfl⟩
  · obtain ⟨log, h⟩ := build_of_inputs hinputs version d
    rw [h]
    rcases hm : (b.compiler.compile version feePayer recentHash ixs).answer with f | m
    · exact .inl ⟨f, by simp only [hm, Except.map], by simp only [hm]⟩
    · exact .inr
        ⟨feePayer, recentHash, ixs, m, hm, by simp only [hm, Except.map], by simp only [hm]⟩

end Builder

/-- A builder and the draft it builds. -/
structure Desk where
  builder : Builder := {}
  draft : Draft := {}

namespace Desk

/-- The calls that prepare a transaction. -/
inductive Call
  | setFeePayer (a : Address)
  | setRecentHash (h : Hash)
  | add (ixs : List Instruction)
  | reset
  | build (version : Version)
  | append (ix : Instruction)
  | sign (completeness : Completeness) (signers : List Signer)

def Call.signers : Call → List Signer
  | .sign _ signers => signers
  | _ => []

/-- The desk after a call, whatever is answered to it. -/
def step (k : Desk) : Call → Desk
  | .setFeePayer a => { k with builder := k.builder.setFeePayer a }
  | .setRecentHash h => { k with builder := k.builder.setRecentHash h }
  | .add ixs => { k with builder := k.builder.add ixs }
  | .reset => { k with builder := k.builder.reset }
  | .build version =>
    let (builder, draft) := (k.builder.build version k.draft).after
    { builder, draft }
  | .append ix => { k with draft := (k.draft.append ix).after }
  | .sign completeness signers => { k with draft := (k.draft.signWith completeness signers).after }

/-- The desk after a row of calls, from a new builder and a new draft on. -/
def run (calls : List Call) : Desk :=
  calls.foldl step {}

variable {k : Desk} {supplied : List Signer}

theorem fresh_step (h : k.draft.content.Fresh supplied) (call : Call) :
    (k.step call).draft.content.Fresh (supplied ++ call.signers) := by
  have hold := h.mono (List.subset_append_left supplied call.signers)
  cases call with
  | setFeePayer a => exact hold
  | setRecentHash a => exact hold
  | add ixs => exact hold
  | reset => exact hold
  | build version =>
    change ((k.builder.build version k.draft).after.2).content.Fresh _
    rcases k.builder.build_cases version k.draft with ⟨f, -, hafter⟩ | ⟨_, _, _, m, -, -, hafter⟩
    · rw [hafter]
      exact hold
    · rw [hafter]
      exact Transaction.fresh_zeroSlots _ m
  | append ix =>
    change ((k.draft.append ix).after.content).Fresh _
    rcases k.draft.append_cases ix with ⟨f, -, hafter⟩ | ⟨m, -, -, hafter⟩
    · rw [hafter]
      exact hold
    · rw [hafter]
      exact Transaction.fresh_zeroSlots _ m
  | sign completeness signers =>
    change ((k.draft.signWith completeness signers).after.content).Fresh _
    rw [Draft.content_signWith]
    exact h.signWith completeness signers

theorem fresh_foldl_step : ∀ (calls : List Call) {k : Desk} {supplied : List Signer},
    k.draft.content.Fresh supplied →
      (calls.foldl step k).draft.content.Fresh (supplied ++ calls.flatMap Call.signers)
  | [], _, _, h => by simpa using h
  | call :: calls, _, _, h => by
    rw [List.foldl_cons, List.flatMap_cons, ← List.append_assoc]
    exact fresh_foldl_step calls (fresh_step h call)

/-- After any run of calls, whether they succeed or fail, there are as many slots as the message
requires, and each is zero or holds what a signer that was supplied for its account answered to the
message as it is. -/
theorem fresh_run (calls : List Call) :
    (run calls).draft.content.Fresh (calls.flatMap Call.signers) := by
  have hnew : ({} : Desk).draft.content.Fresh [] := Transaction.fresh_zeroSlots [] {}
  have hrun := fresh_foldl_step calls hnew
  rwa [List.nil_append] at hrun

end Desk

end OfflineTx
