import Mathlib.Logic.Function.Basic
import OfflineTx.Derivation
import OfflineTx.Proofs.Calls
import OfflineTx.Proofs.Prefixes

/-!
# What objects report

Messages, drafts, compilers, builders and derived addresses are called, and right after a call the
object reports its answer (`ErrorState.Reports`). A draft calls its message and reads with a cursor,
and a builder calls its compiler. Where such an inner call fails, the outer one fails for the same
(`Draft.answer_of_inner`, `Draft.reads`, `Builder.build_of_compile`), so both report the same. So it
is with any number of objects after whatever was done with them, and whatever they reported before
(`Bench.reporting_run`).
-/

namespace OfflineTx

open Method Wire

namespace ErrorState

variable {α : Type} {e : ErrorState}

/-- The state tells whether the call failed, with a code if it did and nothing if it did not. -/
structure Reports (e : ErrorState) (answer : Except Fault α) : Prop where
  failed_iff : e.failed = true ↔ ∃ f, answer = .error f
  code_ne_zero : e.failed = true → e.code ≠ 0
  clear : e.failed = false → e.code = 0 ∧ e.message = []

theorem reports_reporting (answer : Except Fault α) : (reporting answer).Reports answer := by
  rcases answer with f | a
  · exact ⟨⟨fun _ => ⟨f, rfl⟩, fun _ => rfl⟩, fun _ => code_ofFault_ne_zero f, nofun⟩
  · exact ⟨⟨nofun, fun ⟨_, h⟩ => nomatch h⟩, nofun, fun _ => ⟨rfl, rfl⟩⟩

end ErrorState

/-- The reply without what the call gives. -/
def Reply.unit {σ α : Type} (reply : Reply σ α) : Reply σ Unit where
  answer := reply.answer.map fun _ => ()
  after := reply.after
  log := reply.log

namespace DraftMessage

/-- The calls on a message. -/
inductive Call
  | encode
  | transactionSize
  | append (ix : Instruction)
  | decode (c : Cursor)

def call (m : DraftMessage) : Call → Reply DraftMessage Unit
  | .encode => m.encode.unit
  | .transactionSize => m.transactionSize.unit
  | .append ix => m.append ix
  | .decode c =>
    let reply := m.decode c
    { reply with after := reply.after.1 }

theorem answer_call_decode (m : DraftMessage) (c : Cursor) :
    (m.call (.decode c)).answer = (Message.decode c.value).map fun _ => () := by
  change (m.decode c).answer = _
  rcases h : Message.decode c.value with f | ⟨new, r⟩
  · obtain ⟨c', hrun, -⟩ := decode_of_error (m := m) h
    rw [hrun]
    rfl
  · rw [decode_of_ok h]
    rfl

theorem errors_call (m : DraftMessage) (c : Call) :
    (m.call c).after.errors = .reporting (m.call c).answer := by
  cases c with
  | encode =>
    rw [call, encode_eq]
    exact (ErrorState.reporting_map _ _).symm
  | transactionSize =>
    rw [call, transactionSize_eq]
    exact (ErrorState.reporting_map _ _).symm
  | append ix =>
    rw [call, append_eq]
    rcases m.value.append ix with f | new <;> rfl
  | decode c =>
    rw [answer_call_decode, ErrorState.reporting_map]
    change (m.decode c).after.1.errors = _
    rcases h : Message.decode c.value with f | ⟨new, r⟩
    · obtain ⟨c', hrun, -⟩ := decode_of_error (m := m) h
      rw [hrun]
      rfl
    · rw [decode_of_ok h]
      rfl

end DraftMessage

namespace Draft

/-- The calls on a draft. -/
inductive Call
  | encode
  | encodeText (codec : TextCodec)
  | decode (bs : Bytes)
  | decodeText (codec : TextCodec) (text : Bytes)
  | sign (completeness : Completeness) (signers : List Signer)
  | verify
  | append (ix : Instruction)

def call (d : Draft) : Call → Reply Draft Unit
  | .encode => d.encode.unit
  | .encodeText codec => (d.encodeText codec).unit
  | .decode bs => d.decode bs
  | .decodeText codec text => d.decodeText codec text
  | .sign completeness signers => d.signWith completeness signers
  | .verify => d.verify
  | .append ix => d.append ix

/-- The bytes that a call reads. -/
def Call.bytes? : Call → Option Bytes
  | .decode bs => some bs
  | .decodeText codec text => (Transaction.readText codec text).toOption
  | _ => none

/-- What a draft that reads bytes calls its message for, once the signatures were read. -/
def innerOfBytes (bs : Bytes) : Option DraftMessage.Call :=
  match Transaction.readSignatures (.ofBytes bs) with
  | .error _ => none
  | .ok (_, r) => some (.decode (.fresh r))

/-- What a draft that writes calls its message for. -/
def innerIf (reached : Bool) : Option DraftMessage.Call :=
  if reached then some .encode else none

/-- What the draft calls its message for, if it gets that far. -/
def inner (d : Draft) : Call → Option DraftMessage.Call
  | .encode => innerIf d.content.slotsMatch
  | .encodeText _ => innerIf d.content.slotsMatch
  | .decode bs => innerOfBytes bs
  | .decodeText codec text => (Transaction.readText codec text).toOption.bind innerOfBytes
  | .sign completeness signers => innerIf (d.content.slots completeness signers).isOk
  | .verify => innerIf d.content.slotsFit
  | .append ix => some (.append ix)

variable {d : Draft} {c : Call} {inner : DraftMessage.Call} {bs : Bytes} {f : Fault}

theorem errors_call (d : Draft) (c : Call) :
    (d.call c).after.errors = .reporting (d.call c).answer := by
  cases c with
  | encode =>
    rw [call, encode_eq]
    exact (ErrorState.reporting_map _ _).symm
  | encodeText codec =>
    rw [call, encodeText_eq, encode_eq]
    exact ((ErrorState.reporting_map _ _).trans (ErrorState.reporting_map _ _)).symm
  | decode bs =>
    rw [call, decode_eq]
    exact (ErrorState.reporting_map _ _).symm
  | decodeText codec text =>
    rw [call, decodeText_eq]
    exact (ErrorState.reporting_map _ _).symm
  | sign completeness signers => rw [call, signWith_eq]
  | verify => rw [call, verify_eq]
  | append ix =>
    rw [call, append_eq]
    rcases d.content.message.append ix with f | m <;> rfl

theorem errors_messageWritten (d : Draft) (reached : Bool) : (d.messageWritten reached).errors =
    match innerIf reached with
    | none => d.message.errors
    | some inner => (d.message.call inner).after.errors := by
  cases reached <;> rfl

theorem innerIf_eq_some_iff {reached : Bool} :
    innerIf reached = some inner ↔ reached = true ∧ inner = .encode := by
  cases reached <;> simp [innerIf, eq_comm]

theorem messageRead_eq (d : Draft) (bs : Bytes) : d.messageRead bs =
    match innerOfBytes bs with
    | none => d.message.errors
    | some inner => (d.message.call inner).after.errors := by
  unfold messageRead innerOfBytes
  rcases Transaction.readSignatures (.ofBytes bs) with f | ⟨signatures, r⟩
  · rfl
  · dsimp only
    rw [DraftMessage.errors_call, DraftMessage.answer_call_decode, ErrorState.reporting_map]
    rfl

/-- The message reports the draft's call of it, or what it reported before if there was none. -/
theorem errors_message_call (d : Draft) (c : Call) : (d.call c).after.message.errors =
    match d.inner c with
    | none => d.message.errors
    | some inner => (d.message.call inner).after.errors := by
  cases c with
  | encode =>
    rw [call, encode_eq]
    exact d.errors_messageWritten _
  | encodeText codec =>
    rw [call, encodeText_eq, encode_eq]
    exact d.errors_messageWritten _
  | decode bs =>
    rw [call, decode_eq]
    exact d.messageRead_eq bs
  | decodeText codec text =>
    rw [call, decodeText_eq, Draft.inner]
    change d.messageReadText codec text = _
    unfold messageReadText
    rcases Transaction.readText codec text with f | bs
    · rfl
    · exact d.messageRead_eq bs
  | sign completeness signers =>
    rw [call, signWith_eq]
    exact d.errors_messageWritten _
  | verify =>
    rw [call, verify_eq]
    exact d.errors_messageWritten _
  | append ix =>
    rw [call, append_eq, Draft.inner]
    dsimp only
    rw [DraftMessage.call, DraftMessage.append_eq, content]
    dsimp only
    rcases d.message.value.append ix with f | m <;> rfl

theorem encode_of_message {t : Transaction} (hs : t.slotsMatch = true)
    (h : t.message.encode = .error f) : t.encode = .error f := by
  rw [Transaction.encode, Transaction.checkSlots_eq_ok_iff.2 (Transaction.slotsMatch_iff.1 hs), h]
  rfl

theorem decode_of_inner (h : innerOfBytes bs = some inner)
    (hf : (d.message.call inner).answer = .error f) : Transaction.decode bs = .error f := by
  unfold innerOfBytes at h
  rcases hr : Transaction.readSignatures (.ofBytes bs) with g | ⟨signatures, r⟩
  · rw [hr] at h
    cases h
  · rw [hr] at h
    cases h
    rw [DraftMessage.answer_call_decode] at hf
    have hm : Message.decode r = .error f := map_eq_error_iff.1 hf
    rw [decode_of_signatures hr, hm]
    rfl

/-- Where the message fails, the draft that called it fails for the same. -/
theorem answer_of_inner (h : d.inner c = some inner)
    (hf : (d.message.call inner).answer = .error f) : (d.call c).answer = .error f := by
  have hencode : inner = .encode → d.content.message.encode = .error f := by
    rintro rfl
    rw [DraftMessage.call, DraftMessage.encode_eq] at hf
    exact map_eq_error_iff.1 hf
  cases c with
  | encode =>
    obtain ⟨hs, hinner⟩ := innerIf_eq_some_iff.1 h
    rw [call, encode_eq]
    exact map_eq_error_iff.2 (encode_of_message hs (hencode hinner))
  | encodeText codec =>
    obtain ⟨hs, hinner⟩ := innerIf_eq_some_iff.1 h
    rw [call, encodeText_eq]
    exact map_eq_error_iff.2 (map_eq_error_iff.2 (encode_of_message hs (hencode hinner)))
  | decode bs =>
    rw [call, decode_eq]
    exact map_eq_error_iff.2 (decode_of_inner h hf)
  | decodeText codec text =>
    obtain ⟨bs, hbs, hinner⟩ := Option.bind_eq_some_iff.1 h
    rw [call, decodeText_eq]
    refine map_eq_error_iff.2 ?_
    rcases htext : Transaction.readText codec text with g | bs'
    · rw [htext] at hbs
      cases hbs
    · rw [htext] at hbs
      cases hbs
      rw [Transaction.decodeText, htext]
      exact decode_of_inner hinner hf
  | sign completeness signers =>
    obtain ⟨hs, hinner⟩ := innerIf_eq_some_iff.1 h
    rw [call, answer_signWith]
    rcases hslots : d.content.slots completeness signers with g | slots
    · rw [hslots] at hs
      cases hs
    · simp only [Transaction.signWith, hslots, hencode hinner]
  | verify =>
    obtain ⟨hs, hinner⟩ := innerIf_eq_some_iff.1 h
    rw [call, answer_verify, Transaction.verify, if_pos hs, hencode hinner]
  | append ix =>
    cases h
    rw [DraftMessage.call, DraftMessage.answer_append] at hf
    rw [call, answer_append]
    exact hf

/-- The cursor that reads the bytes of a call, after the call. -/
def cursorAfter (d : Draft) (bs : Bytes) : Cursor :=
  (run (d, .ofBytes bs) read).after.2

/-- Where the cursor fails, the draft that reads with it fails for the same. -/
theorem errors_of_cursor (h : c.bytes? = some bs) (hf : (d.cursorAfter bs).errors.failed = true) :
    (d.call c).after.errors = (d.cursorAfter bs).errors := by
  have hcursor : (d.cursorAfter bs).errors = .reporting (Transaction.decode bs) := by
    rcases (d.reads bs).cursor with hclear | hreporting
    · rw [cursorAfter, hclear] at hf
      cases hf
    · exact hreporting
  rw [hcursor]
  cases c with
  | decode bs' =>
    cases h
    rw [call, decode_eq]
    rfl
  | decodeText codec text =>
    rw [call, decodeText_eq, Transaction.decodeText]
    change (Transaction.readText codec text).toOption = some bs at h
    rcases htext : Transaction.readText codec text with f | bs'
    · rw [htext] at h
      cases h
    · rw [htext] at h
      cases h
      rfl
  | encode => cases h
  | encodeText codec => cases h
  | sign completeness signers => cases h
  | verify => cases h
  | append ix => cases h

end Draft

namespace TrackedCompiler

theorem errors_compileInto (c : TrackedCompiler) (m : DraftMessage) (version : Version)
    (feePayer : Address) (recentHash : Hash) (ixs : List Instruction) :
    (c.compileInto m version feePayer recentHash ixs).after.1.errors =
      .reporting (c.compileInto m version feePayer recentHash ixs).answer := by
  obtain ⟨_, hcompile⟩ := c.compile_eq version feePayer recentHash ixs
  obtain ⟨_, hinto⟩ := c.compileInto_eq version feePayer recentHash ixs m
  rw [hinto, hcompile]
  exact (ErrorState.reporting_map _ _).symm

end TrackedCompiler

namespace Builder

variable {b : Builder} {feePayer : Address} {recentHash : Hash} {ixs : List Instruction} {f : Fault}

theorem errors_build (b : Builder) (version : Version) (d : Draft) :
    (b.build version d).after.1.errors = .reporting (b.build version d).answer := by
  rcases hinputs : b.inputs with f | ⟨feePayer, recentHash, ixs⟩
  · rw [build_of_inputs_error hinputs]
    rfl
  · obtain ⟨_, hbuild⟩ := build_of_inputs hinputs version d
    rw [hbuild]
    exact (ErrorState.reporting_map _ _).symm

/-- Where the compiler fails, the builder that called it fails for the same, and has the compiler
that reports it. -/
theorem build_of_compile (version : Version) (d : Draft)
    (h : b.inputs = .ok (feePayer, recentHash, ixs))
    (hf : (b.compiler.compileInto d.message version feePayer recentHash ixs).answer = .error f) :
    (b.build version d).answer = .error f ∧
      (b.build version d).after.1.compiler.errors = .ofFault f := by
  obtain ⟨_, hinto⟩ := b.compiler.compileInto_eq version feePayer recentHash ixs d.message
  obtain ⟨_, hbuild⟩ := build_of_inputs h version d
  have herrors := b.compiler.errors_compileInto d.message version feePayer recentHash ixs
  rw [hf] at herrors
  rw [hinto] at hf herrors
  rw [hbuild]
  exact ⟨hf, herrors⟩

end Builder

theorem DerivedAddress.errors_run (call : Call) (seeds : List Bytes) (program : Address)
    (a : Tracked DerivedAddress) :
    (run call seeds program a).2.errors = .reporting (run call seeds program a).1 := by
  rw [run_eq]
  rcases answer call seeds program with f | found <;> rfl

/-- Any number of objects. -/
structure Bench where
  messages : Nat → DraftMessage := fun _ => .empty
  drafts : Nat → Draft := fun _ => {}
  compilers : Nat → TrackedCompiler := fun _ => .empty
  builders : Nat → Builder := fun _ => {}
  addresses : Nat → Tracked DerivedAddress := fun _ => .fresh .initial

namespace Bench

/-- Where a message is: on its own, or in a draft. -/
inductive Place
  | alone (i : Nat)
  | inside (d : Nat)

inductive Object
  | message (p : Place)
  | draft (d : Nat)
  | compiler (c : Nat)
  | builder (b : Nat)
  | address (a : Nat)

def message (k : Bench) : Place → DraftMessage
  | .alone i => k.messages i
  | .inside d => (k.drafts d).message

def setDraft (k : Bench) (d : Nat) (new : Draft) : Bench :=
  { k with drafts := Function.update k.drafts d new }

def setMessage (k : Bench) (new : DraftMessage) : Place → Bench
  | .alone i => { k with messages := Function.update k.messages i new }
  | .inside d => k.setDraft d { k.drafts d with message := new }

def setCompiler (k : Bench) (c : Nat) (new : TrackedCompiler) : Bench :=
  { k with compilers := Function.update k.compilers c new }

def setBuilder (k : Bench) (b : Nat) (new : Builder) : Bench :=
  { k with builders := Function.update k.builders b new }

def setAddress (k : Bench) (a : Nat) (new : Tracked DerivedAddress) : Bench :=
  { k with addresses := Function.update k.addresses a new }

def setErrors (k : Bench) (e : ErrorState) : Object → Bench
  | .message p => k.setMessage { k.message p with errors := e } p
  | .draft d => k.setDraft d { k.drafts d with errors := e }
  | .compiler c => k.setCompiler c { k.compilers c with errors := e }
  | .builder b => k.setBuilder b { k.builders b with errors := e }
  | .address a => k.setAddress a { k.addresses a with errors := e }

/-- What is done with the objects: the calls that are answered, and whatever else there is, which is
to change what an object holds, to assign one to another, and to make one report something. -/
inductive Step
  | callMessage (p : Place) (call : DraftMessage.Call)
  | callDraft (d : Nat) (call : Draft.Call)
  | compile (c : Nat) (version : Version) (feePayer : Address) (recentHash : Hash)
      (ixs : List Instruction) (target : Place)
  | build (b : Nat) (version : Version) (d : Nat)
  | derive (a : Nat) (call : DerivedAddress.Call) (seeds : List Bytes) (program : Address)
  | size (d : Nat)
  | editMessage (p : Place) (new : Message)
  | editSlots (d : Nat) (new : List Signature)
  | setFeePayer (b : Nat) (a : Address)
  | setRecentHash (b : Nat) (h : Hash)
  | add (b : Nat) (ixs : List Instruction)
  | reset (b : Nat)
  | assignMessage (p source : Place)
  | assignDraft (d source : Nat)
  | assignCompiler (c source : Nat)
  | assignBuilder (b source : Nat)
  | assignAddress (a source : Nat)
  | report (o : Object) (e : ErrorState)

/-- The bench after a step, whatever is answered to it. -/
def step (k : Bench) : Step → Bench
  | .callMessage p call => k.setMessage ((k.message p).call call).after p
  | .callDraft d call => k.setDraft d ((k.drafts d).call call).after
  | .compile c version feePayer recentHash ixs target =>
    let (compiler, message) :=
      ((k.compilers c).compileInto (k.message target) version feePayer recentHash ixs).after
    (k.setCompiler c compiler).setMessage message target
  | .build b version d =>
    let (builder, draft) := ((k.builders b).build version (k.drafts d)).after
    (k.setBuilder b builder).setDraft d draft
  | .derive a call seeds program =>
    k.setAddress a (DerivedAddress.run call seeds program (k.addresses a)).2
  | .size d => k.setDraft d (k.drafts d).size.2
  | .editMessage p new => k.setMessage { k.message p with value := new } p
  | .editSlots d new => k.setDraft d { k.drafts d with signatures := new }
  | .setFeePayer b a => k.setBuilder b ((k.builders b).setFeePayer a)
  | .setRecentHash b h => k.setBuilder b ((k.builders b).setRecentHash h)
  | .add b ixs => k.setBuilder b ((k.builders b).add ixs)
  | .reset b => k.setBuilder b (k.builders b).reset
  | .assignMessage p source => k.setMessage (k.message source) p
  | .assignDraft d source => k.setDraft d (k.drafts source)
  | .assignCompiler c source => k.setCompiler c (k.compilers source)
  | .assignBuilder b source => k.setBuilder b (k.builders source)
  | .assignAddress a source => k.setAddress a (k.addresses source)
  | .report o e => k.setErrors e o

/-- The bench after a row of steps, from new objects on. -/
def run (steps : List Step) : Bench :=
  steps.foldl step {}

/-- Right after a call an object reports the answer, and together with what it called where that
failed: a draft with its message or with the cursor of the bytes that it reads, and a builder with
its compiler. A message in a draft reports of the draft's calls those that reach it. -/
structure Reporting (k : Bench) : Prop where
  message : ∀ p call, ((k.step (.callMessage p call)).message p).errors.Reports
    ((k.message p).call call).answer
  draft : ∀ d call, ((k.step (.callDraft d call)).drafts d).errors.Reports
    ((k.drafts d).call call).answer
  compiler : ∀ c version feePayer recentHash ixs target,
    ((k.step (.compile c version feePayer recentHash ixs target)).compilers c).errors.Reports
      ((k.compilers c).compileInto (k.message target) version feePayer recentHash ixs).answer
  builder : ∀ b version d, ((k.step (.build b version d)).builders b).errors.Reports
    ((k.builders b).build version (k.drafts d)).answer
  address : ∀ a call seeds program,
    ((k.step (.derive a call seeds program)).addresses a).errors.Reports
      (DerivedAddress.run call seeds program (k.addresses a)).1
  messageCalled : ∀ d call, ((k.step (.callDraft d call)).drafts d).message.errors =
    match (k.drafts d).inner call with
    | none => (k.drafts d).message.errors
    | some inner => ((k.drafts d).message.call inner).after.errors
  messageFailed : ∀ d call inner f, (k.drafts d).inner call = some inner →
    ((k.drafts d).message.call inner).answer = .error f →
    ((k.drafts d).call call).answer = .error f ∧
      ((k.step (.callDraft d call)).drafts d).message.errors = .ofFault f ∧
      ((k.step (.callDraft d call)).drafts d).errors = .ofFault f
  readerFailed : ∀ d (call : Draft.Call) bs, call.bytes? = some bs →
    ((k.drafts d).cursorAfter bs).errors.failed = true →
    ((k.step (.callDraft d call)).drafts d).errors = ((k.drafts d).cursorAfter bs).errors
  compilerFailed : ∀ b version d feePayer recentHash ixs f,
    (k.builders b).inputs = .ok (feePayer, recentHash, ixs) →
    ((k.builders b).compiler.compileInto (k.drafts d).message version feePayer recentHash
      ixs).answer = .error f →
    ((k.builders b).build version (k.drafts d)).answer = .error f ∧
      ((k.step (.build b version d)).builders b).compiler.errors = .ofFault f ∧
      ((k.step (.build b version d)).builders b).errors = .ofFault f

variable {k : Bench}

theorem message_setMessage (k : Bench) (new : DraftMessage) (p : Place) :
    (k.setMessage new p).message p = new := by
  cases p with
  | alone i => exact Function.update_self i new k.messages
  | inside d => exact congrArg Draft.message (Function.update_self d _ k.drafts)

theorem drafts_setDraft (k : Bench) (d : Nat) (new : Draft) :
    (k.setDraft d new).drafts d = new := by
  simp only [setDraft, Function.update_self]

theorem compilers_setMessage (k : Bench) (new : DraftMessage) (p : Place) :
    (k.setMessage new p).compilers = k.compilers := by
  cases p <;> rfl

theorem builders_build (k : Bench) (b : Nat) (version : Version) (d : Nat) :
    (k.step (.build b version d)).builders b =
      ((k.builders b).build version (k.drafts d)).after.1 :=
  Function.update_self b _ k.builders

theorem drafts_callDraft (k : Bench) (d : Nat) (call : Draft.Call) :
    (k.step (.callDraft d call)).drafts d = ((k.drafts d).call call).after :=
  k.drafts_setDraft d _

theorem reporting (k : Bench) : k.Reporting where
  message p call := by
    rw [step, message_setMessage, DraftMessage.errors_call]
    exact ErrorState.reports_reporting _
  draft d call := by
    rw [drafts_callDraft, Draft.errors_call]
    exact ErrorState.reports_reporting _
  compiler c version feePayer recentHash ixs target := by
    simp only [step, compilers_setMessage, setCompiler, Function.update_self]
    rw [TrackedCompiler.errors_compileInto]
    exact ErrorState.reports_reporting _
  builder b version d := by
    rw [builders_build, Builder.errors_build]
    exact ErrorState.reports_reporting _
  address a call seeds program := by
    simp only [step, setAddress, Function.update_self]
    rw [DerivedAddress.errors_run]
    exact ErrorState.reports_reporting _
  messageCalled d call := by
    rw [drafts_callDraft, Draft.errors_message_call]
  messageFailed d call inner f hinner hf := by
    have hanswer := Draft.answer_of_inner hinner hf
    rw [drafts_callDraft, Draft.errors_message_call, hinner, Draft.errors_call, hanswer]
    refine ⟨rfl, ?_, rfl⟩
    dsimp only
    rw [DraftMessage.errors_call, hf]
    rfl
  readerFailed d call bs hbs hf := by
    rw [drafts_callDraft]
    exact Draft.errors_of_cursor hbs hf
  compilerFailed b version d feePayer recentHash ixs f hinputs hf := by
    obtain ⟨hanswer, hcompiler⟩ := Builder.build_of_compile version (k.drafts d) hinputs hf
    rw [builders_build, Builder.errors_build, hanswer]
    exact ⟨rfl, hcompiler, rfl⟩

/-- Whatever was done with the objects, right after a call they report it. -/
theorem reporting_run (steps : List Step) : (run steps).Reporting :=
  reporting _

/-- Bytes without the signature they announce, where the cursor fails, are followed by bytes of an
unknown version, where the message fails, and then the draft, which is now empty, is verified. -/
theorem reporting_run_refused :
    let k := run [.callDraft 0 (.decode [1])]
    let k' := run [.callDraft 0 (.decode [1]), .callDraft 0 (.decode [0, 0x81])]
    (k.drafts 0).errors = .ofFault (.truncatedField (ascii "signatures") 1 64 0) ∧
      (k'.drafts 0).errors = .ofFault (.unknownVersion 1 1) ∧
      (k'.drafts 0).message.errors = .ofFault (.unknownVersion 1 1) ∧
      ((k'.step (.callDraft 0 .verify)).drafts 0).errors.failed = false := by
  intro k k'
  have hreader := (reporting_run []).readerFailed 0 (.decode [1]) [1] rfl rfl
  have hmessage := (reporting_run [.callDraft 0 (.decode [1])]).messageFailed 0
    (.decode [0, 0x81]) (.decode (.fresh ⟨1, [0x81]⟩)) (.unknownVersion 1 1) rfl rfl
  exact ⟨hreader, hmessage.2.2, hmessage.2.1, rfl⟩

end Bench

end OfflineTx
