import OfflineTx.Builder

/-!
# What calls come to

A call on a message, a draft, a compiler or a builder answers what the function of its content does,
and leaves the object as the steps of the call do: it reports the answer, and so does each part that
was called on the way. Steps that read with a cursor beside come to what a reader does
(`Method.Follows`).
-/

namespace OfflineTx

open Method Wire

/-- What an object reports of a call with the given answer. -/
def ErrorState.reporting {α : Type} : Except Fault α → ErrorState
  | .ok _ => .clear
  | .error f => .ofFault f

namespace ErrorState

variable {α β : Type}

@[simp] theorem reporting_map (answer : Except Fault α) (g : α → β) :
    reporting (answer.map g) = reporting answer := by
  cases answer <;> rfl

end ErrorState

namespace Method

variable {σ α β : Type} [Reporter σ]

/-- Steps with a cursor beside that do what a reader does. A fault is reported, and the cursor
reports nothing else. -/
structure Follows (steps : Method (σ × Cursor) α)
    (read : Reader → Except Fault (α × Reader)) : Prop where
  of_ok : ∀ {s c a r}, read c.value = .ok (a, r) →
    run (s, c) steps = { answer := .ok a, after := (s, { c with value := r }) }
  of_error : ∀ {s c f}, read c.value = .error f → ∃ c',
    run (s, c) steps = { answer := .error f, after := (Reporter.report (.ofFault f) s, c') } ∧
      (c'.errors = c.errors ∨ c'.errors = .ofFault f)

variable {steps : Method (σ × Cursor) α} {read : Reader → Except Fault (α × Reader)}

theorem follows_pure (a : α) : Follows (pure a : Method (σ × Cursor) α) fun r => pure (a, r) where
  of_ok h := by
    cases h
    rfl
  of_error h := nomatch h

theorem follows_reading (read : Reader → Except Fault (α × Reader)) :
    Follows (reading read : Method (σ × Cursor) α) read where
  of_ok {s c a r} h := by
    have htake := Cursor.take_eq read c
    rw [h] at htake
    rw [reading, run_callOn, Part.second, htake]
  of_error {s c f} h := by
    have htake := Cursor.take_eq read c
    rw [h] at htake
    refine ⟨{ c with errors := .ofFault f }, ?_, .inr rfl⟩
    rw [reading, run_callOn, Part.second, htake]
    rfl

theorem Follows.bind {next : α → Method (σ × Cursor) β}
    {cont : α × Reader → Except Fault (β × Reader)} (h : Follows steps read)
    (hnext : ∀ a, Follows (next a) fun r => cont (a, r)) :
    Follows (steps >>= next) fun r => read r >>= cont where
  of_ok {s c b r} hr := by
    rcases ha : read c.value with f | ⟨a, m⟩
    · rw [ha] at hr
      cases hr
    · rw [ha] at hr
      have hrun := (hnext a).of_ok (s := s) (c := { c with value := m }) hr
      rw [run_bind, h.of_ok ha]
      dsimp only
      rw [hrun]
      rfl
  of_error {s c f} hr := by
    rcases ha : read c.value with g | ⟨a, m⟩
    · rw [ha] at hr
      cases hr
      obtain ⟨c', hrun, herrors⟩ := h.of_error (s := s) ha
      refine ⟨c', ?_, herrors⟩
      rw [run_bind, hrun]
    · rw [ha] at hr
      obtain ⟨c', hrun, herrors⟩ := (hnext a).of_error (s := s) (c := { c with value := m }) hr
      refine ⟨c', ?_, herrors⟩
      rw [run_bind, h.of_ok ha]
      dsimp only
      rw [hrun]
      rfl

theorem Follows.check {next : Unit → Method (σ × Cursor) α} (answer : Except Fault Unit)
    (h : Follows (next ()) read) :
    Follows (Method.check answer >>= next) fun r => answer >>= fun _ => read r where
  of_ok {s c a r} hr := by
    rcases answer with f | _
    · cases hr
    · exact h.of_ok hr
  of_error {s c f} hr := by
    rcases answer with g | _
    · cases hr
      exact ⟨c, rfl, .inl rfl⟩
    · exact h.of_error hr

theorem follows_fail (f : Fault) :
    Follows (fail f : Method (σ × Cursor) α) fun _ => .error f where
  of_ok h := nomatch h
  of_error h := by
    cases h
    exact ⟨_, rfl, .inl rfl⟩

theorem Follows.ite {p : Prop} [Decidable p] {steps' : Method (σ × Cursor) α}
    {read' : Reader → Except Fault (α × Reader)} (h : Follows steps read)
    (h' : Follows steps' read') :
    Follows (if p then steps else steps') fun r => if p then read r else read' r := by
  by_cases hp : p
  · simpa only [if_pos hp] using h
  · simpa only [if_neg hp] using h'

end Method

namespace DraftMessage

theorem forM_checkLength : ∀ lists : List Overlong, lists.forM checkLength =
    match lists.find? fun l => 0xffff < l.length with
    | some l => .error (.overlong l)
    | none => .ok ()
  | [] => rfl
  | l :: lists => by
    have ih := forM_checkLength lists
    change (checkLength l >>= fun _ => lists.forM checkLength) = _
    rw [ih, checkLength]
    by_cases h : 0xffff < l.length
    · rw [if_pos h, List.find?_cons, decide_eq_true h]
      rfl
    · rw [if_neg h, List.find?_cons, decide_eq_false h]
      rfl

theorem encode_eq (m : DraftMessage) : m.encode =
    { answer := m.value.encode, after := { m with errors := .reporting m.value.encode } } := by
  unfold encode Message.encode Message.overlong?
  rw [forM_checkLength]
  rcases m.value.lists.find? _ with _ | l <;> rfl

theorem transactionSize_eq (m : DraftMessage) : m.transactionSize =
    { answer := m.value.transactionSize
      after := { m with errors := .reporting m.value.transactionSize } } := by
  rw [transactionSize, run_bind, run_call, encode_eq, Message.transactionSize]
  rcases m.value.encode with f | bs <;> rfl

section InPacket

variable {σ β : Type} [Reporter σ] {s : σ}

theorem run_inPacket (m : DraftMessage) : run s (inPacket m) =
    match m.value.sizeInPacket with
    | .error f => { answer := .error f, after := Reporter.report (.ofFault f) s }
    | .ok size => { answer := .ok (.fresh m.value, size), after := s } := by
  rw [inPacket, transactionSize_eq, Message.sizeInPacket, Message.transactionSize, Message.encode]
  rcases m.value.overlong? with _ | l
  · dsimp only
    by_cases h : maxPacket < m.value.sizeAround m.value.wire
    · rw [if_pos h, if_pos h]
      rfl
    · rw [if_neg h, if_neg h]
      rfl
  · rfl

end InPacket

theorem append_eq (m : DraftMessage) (ix : Instruction) : m.append ix =
    match m.value.append ix with
    | .error f => { answer := .error f, after := { m with errors := .ofFault f } }
    | .ok new => { answer := .ok (), after := .fresh new } := by
  unfold append Message.append
  rw [run_reset_bind, run_get_bind]
  dsimp only [Reporter.report]
  rcases m.value.joined ix with f | new
  · rfl
  · rw [run_check_ok_bind, run_bind, run_inPacket]
    dsimp only
    rcases new.sizeInPacket with f | size <;> rfl

theorem answer_append (m : DraftMessage) (ix : Instruction) :
    (m.append ix).answer = (m.value.append ix).map fun _ => () := by
  rw [append_eq]
  rcases m.value.append ix with f | new <;> rfl

section Reading

variable {σ : Type} [Reporter σ]

theorem follows_readVersion :
    Follows (readVersion : Method (σ × Cursor) Version) Message.readVersion := by
  have heq : Message.readVersion = fun r =>
      (pure (r.offset, r) : Except Fault (Nat × Reader)) >>= fun start =>
        (start.2.peek (ascii "message header")).map (·, start.2) >>= fun first =>
          if first.1 < 0x80 then pure (.legacy, first.2)
          else first.2.byte (ascii "version prefix") >>= fun byte =>
            if byte.1 = 0x80 then pure (.v0, byte.2)
            else .error (.unknownVersion start.1 (byte.1.toNat - 0x80)) := by
    funext r
    unfold Message.readVersion
    change _ = (r.peek (ascii "message header")).map (·, r) >>= _
    cases r.peek (ascii "message header") <;> rfl
  rw [heq]
  refine (follows_reading _).bind fun offset => ?_
  dsimp only
  refine (follows_reading _).bind fun first => .ite (follows_pure _) ?_
  dsimp only
  exact (follows_reading _).bind fun byte => .ite (follows_pure _) (follows_fail _)

theorem follows_read : Follows (read : Method (σ × Cursor) Message) Message.decode :=
  follows_readVersion.bind fun _ => (follows_reading _).bind fun _ =>
    (follows_reading _).bind fun _ => .check _ <| (follows_reading _).bind fun _ =>
      (follows_reading _).bind fun _ => (follows_reading _).bind fun _ =>
        .check _ <| follows_pure _

end Reading

variable {m : DraftMessage} {c : Cursor} {new : Message} {r : Reader} {f : Fault}

theorem decode_of_ok (h : Message.decode c.value = .ok (new, r)) :
    m.decode c = { answer := .ok (), after := (.fresh new, { c with value := r }) } := by
  unfold decode
  rw [run_modify_bind, run_reset_bind, run_bind]
  dsimp only [Reporter.report]
  rw [follows_read.of_ok h]
  rfl

theorem decode_of_error (h : Message.decode c.value = .error f) : ∃ c',
    m.decode c =
        { answer := .error f, after := ({ value := .empty, errors := .ofFault f }, c') } ∧
      (c'.errors = c.errors ∨ c'.errors = .ofFault f) := by
  obtain ⟨c', hrun, herrors⟩ :=
    follows_read.of_error (s := ({ value := .empty, errors := .clear } : DraftMessage)) h
  refine ⟨c', ?_, herrors⟩
  unfold decode
  rw [run_modify_bind, run_reset_bind, run_bind]
  dsimp only [Reporter.report]
  rw [hrun]
  rfl

end DraftMessage

namespace Draft

variable {d : Draft} {bs : Bytes} {f : Fault}

theorem signatures_content (d : Draft) : d.content.signatures = d.signatures := rfl

/-- The message after a call on the draft, which writes the message if it gets that far. -/
def messageWritten (d : Draft) (reached : Bool) : DraftMessage :=
  if reached then d.message.encode.after else d.message

/-- The step that writes the message. -/
theorem run_write (d : Draft) (errors : ErrorState) :
    run { d with errors } (callOn messagePart DraftMessage.encode) =
      match d.content.message.encode with
      | .error f =>
        { answer := .error f
          after := { d with message := d.message.encode.after, errors := .ofFault f } }
      | .ok bs =>
        { answer := .ok bs, after := { d with message := d.message.encode.after, errors } } := by
  rw [run_callOn, messagePart, content]
  dsimp only
  rw [DraftMessage.encode_eq]
  rcases d.message.value.encode with f | bs <;> rfl

theorem encode_eq (d : Draft) : d.encode =
    { answer := d.content.encode
      after := { d with
        message := d.messageWritten d.content.slotsMatch
        errors := .reporting d.content.encode } } := by
  unfold encode Transaction.encode messageWritten
  rw [run_reset_bind]
  by_cases h : d.content.signatures.length = d.content.message.required
  · have hcheck : Transaction.checkSlots d.content.message.required d.content.signatures.length =
        .ok () := if_pos h
    have hmatch : d.content.slotsMatch = true := beq_iff_eq.2 h
    have hwrite := d.run_write .clear
    change run _ (check (Transaction.checkSlots _ d.content.signatures.length) >>= _) = _
    rw [hcheck, hmatch, run_check_ok_bind, run_bind]
    dsimp only [Reporter.report]
    rw [hwrite]
    rcases d.content.message.encode with f | bs <;> rfl
  · have hcheck : Transaction.checkSlots d.content.message.required d.content.signatures.length =
        .error _ := if_neg h
    have hmatch : d.content.slotsMatch = false := beq_eq_false_iff_ne.2 h
    change run _ (check (Transaction.checkSlots _ d.content.signatures.length) >>= _) = _
    rw [hcheck, hmatch]
    rfl

theorem value_messageWritten (d : Draft) (reached : Bool) :
    (d.messageWritten reached).value = d.content.message := by
  rw [messageWritten, DraftMessage.encode_eq]
  cases reached <;> rfl

theorem answer_encode (d : Draft) : d.encode.answer = d.content.encode := by
  rw [encode_eq]

theorem content_encode (d : Draft) : d.encode.after.content = d.content := by
  rw [encode_eq]
  exact congrArg (Transaction.mk d.signatures) (d.value_messageWritten _)

theorem encodeText_eq (codec : TextCodec) (d : Draft) : d.encodeText codec =
    { answer := d.content.encodeText codec, after := d.encode.after } := by
  rw [encodeText, run_bind, run_call, encode_eq, Transaction.encodeText]
  rcases d.content.encode with f | bs <;> rfl

theorem verify_eq (d : Draft) : d.verify =
    { answer := d.content.verify
      after := { d with
        message := d.messageWritten d.content.slotsFit
        errors := .reporting d.content.verify } } := by
  unfold verify Transaction.verify messageWritten
  have hwrite := d.run_write .clear
  rw [run_reset_bind]
  dsimp only [Reporter.report]
  rcases d.content.slotsFit with _ | _
  · rfl
  · rw [if_pos rfl, if_pos rfl, if_pos rfl, run_check_ok_bind, run_bind, hwrite]
    rcases d.content.message.encode with f | bs
    · rfl
    · dsimp only
      rcases Transaction.rejected? bs d.content.message.keys d.content.signatures with _ | a <;> rfl

theorem answer_verify (d : Draft) : d.verify.answer = d.content.verify := by
  rw [verify_eq]

theorem content_verify (d : Draft) : d.verify.after.content = d.content := by
  rw [verify_eq]
  exact congrArg (Transaction.mk d.signatures) (d.value_messageWritten _)

theorem run_fillSlots (d : Draft) (message : Bytes) (slots : List Slot) :
    run d (fillSlots message slots) =
      let signing := Signing.fill message 0 slots d.signatures
      let after := { d with signatures := signing.signatures }
      let log := signing.filled.map filledEntry
      match signing.failed with
      | some a =>
        let f := Fault.signingFailed a
        { answer := .error f, after := { after with errors := .ofFault f }, log }
      | none => { answer := .ok (), after, log } := by
  rw [fillSlots, run_get_bind, run_modify_bind, run_bind, run_note]
  dsimp only
  rcases (Signing.fill message 0 slots d.signatures).failed with _ | a
  · exact congrArg (Reply.mk _ _) (List.append_nil _)
  · exact congrArg (Reply.mk _ _) (List.append_nil _)

theorem fitSlots_written (d : Draft) (errors : ErrorState) :
    ({ d with message := d.message.encode.after, errors } : Draft).fitSlots =
      { d with
        signatures := (if d.content.slotsMatch then d.content else d.content.resetSlots).signatures
        message := d.message.encode.after
        errors } := by
  have hcontent : ({ d with message := d.message.encode.after, errors } : Draft).content =
      d.content := by
    rw [content, DraftMessage.encode_eq]
    rfl
  rw [fitSlots, hcontent]
  rcases d.content.slotsMatch with _ | _
  · rw [resetSlots, DraftMessage.encode_eq]
    rfl
  · rfl

theorem signWith_eq (completeness : Completeness) (d : Draft) (signers : List Signer) :
    let signed := d.content.signWith completeness signers
    d.signWith completeness signers =
      { answer := signed.answer
        after :=
          { signatures := signed.transaction.signatures
            message := d.messageWritten (d.content.slots completeness signers).isOk
            errors := .reporting signed.answer }
        log := signed.filled.map filledEntry } := by
  unfold signWith Transaction.signWith messageWritten
  have hwrite := d.run_write .clear
  have hfit := d.fitSlots_written .clear
  rw [run_reset_bind]
  dsimp only [Reporter.report]
  rcases d.content.slots completeness signers with f | slots
  · rfl
  · rw [run_check_ok_bind, run_bind, hwrite]
    rcases d.content.message.encode with f | message
    · rfl
    · dsimp only
      rw [run_modify_bind, hfit, run_fillSlots]
      dsimp only
      generalize Signing.fill message 0 slots _ = signing
      rcases signing with ⟨signatures, filled, _ | a⟩ <;> rfl

theorem answer_signWith (completeness : Completeness) (d : Draft) (signers : List Signer) :
    (d.signWith completeness signers).answer =
      (d.content.signWith completeness signers).answer := by
  rw [signWith_eq]

theorem append_eq (d : Draft) (ix : Instruction) : d.append ix =
    match d.content.message.append ix with
    | .error f =>
      { answer := .error f
        after := { d with message.errors := .ofFault f, errors := .ofFault f } }
    | .ok m => { answer := .ok (), after := .ofMessage m, log := [appendedEntry ix m] } := by
  unfold append
  rw [run_reset_bind, run_bind, run_callOn, messagePart, content]
  dsimp only [Reporter.report]
  rw [DraftMessage.append_eq]
  rcases d.message.value.append ix with f | m <;> rfl

theorem answer_append (d : Draft) (ix : Instruction) :
    (d.append ix).answer = (d.content.message.append ix).map fun _ => () := by
  rw [append_eq]
  rcases d.content.message.append ix with f | m <;> rfl

/-- What the message reports after its bytes were read: nothing new if the signatures before it
could not be read. -/
def messageRead (d : Draft) (bs : Bytes) : ErrorState :=
  match Transaction.readSignatures (.ofBytes bs) with
  | .error _ => d.message.errors
  | .ok (_, r) => .reporting (Message.decode r)

/-- What comes of reading bytes into a draft with a cursor. -/
structure Reads (d : Draft) (bs : Bytes) (reply : Reply (Draft × Cursor) Unit) : Prop where
  log : reply.log = []
  answer : reply.answer = (Transaction.decode bs).map fun _ => ()
  errors : reply.after.1.errors = .reporting (Transaction.decode bs)
  message : reply.after.1.message.errors = d.messageRead bs
  cursor : reply.after.2.errors = .clear ∨
    reply.after.2.errors = .reporting (Transaction.decode bs)
  content : ∀ t, Transaction.decode bs = .ok t → reply.after.1.content = t

variable {signatures : List Signature} {m : Message} {r r' : Reader}
  {reply : Reply (Draft × Cursor) Unit}

theorem Reads.of_error (h : Transaction.decode bs = .error f) (log : reply.log = [])
    (answer : reply.answer = .error f)
    (errors : reply.after.1.errors = .ofFault f)
    (message : reply.after.1.message.errors = d.messageRead bs)
    (cursor : reply.after.2.errors = .clear ∨ reply.after.2.errors = .ofFault f) :
    d.Reads bs reply where
  log := log
  answer := by rw [h, answer]; rfl
  errors := by rw [h, errors]; rfl
  message := message
  cursor := by rw [h]; exact cursor
  content t ht := nomatch h.symm.trans ht

theorem run_keep (d : Draft) (c : Cursor) (signatures : List Signature) :
    run (d, c) (keep signatures) =
      match Transaction.checkSlots d.message.value.required signatures.length >>= fun _ =>
        Transaction.checkEnd c.value with
      | .error f => { answer := .error f, after := ({ d with errors := .ofFault f }, c) }
      | .ok () => { answer := .ok (), after := ({ d with signatures }, c) } := by
  rw [keep, run_get_bind]
  dsimp only [content]
  rcases Transaction.checkSlots d.message.value.required signatures.length with f | _
  · rfl
  · rw [run_check_ok_bind]
    change _ = match Transaction.checkEnd c.value with | _ => _
    rcases Transaction.checkEnd c.value with f | _ <;> rfl

theorem decode_of_signatures (h : Transaction.readSignatures (.ofBytes bs) = .ok (signatures, r)) :
    Transaction.decode bs = Message.decode r >>= fun (m, r) =>
      (Transaction.checkSlots m.required signatures.length >>= fun _ => Transaction.checkEnd r) >>=
        fun _ => pure { signatures, message := m } := by
  rw [Transaction.decode, h]
  change Message.decode r >>= _ = _
  rcases Message.decode r with f | ⟨m, r⟩
  · rfl
  · change (Transaction.checkSlots m.required signatures.length >>= _) =
      (Transaction.checkSlots m.required signatures.length >>= _) >>= _
    cases Transaction.checkSlots m.required signatures.length <;> rfl

theorem reads (d : Draft) (bs : Bytes) : d.Reads bs (run (d, .ofBytes bs) read) := by
  unfold read
  rw [run_reset_bind, run_bind]
  dsimp only [Reporter.report]
  rcases hs : Transaction.readSignatures (.ofBytes bs) with f | ⟨signatures, r⟩
  · have hdecode : Transaction.decode bs = .error f := by
      rw [Transaction.decode, hs]
      rfl
    obtain ⟨c, hrun, hc⟩ := (follows_reading Transaction.readSignatures).of_error
      (s := ({ d with errors := .clear } : Draft)) (c := .ofBytes bs) hs
    rw [hrun]
    exact .of_error hdecode rfl rfl rfl (by rw [messageRead, hs]; rfl) hc
  · rw [(follows_reading Transaction.readSignatures).of_ok
      (s := ({ d with errors := .clear } : Draft)) (c := .ofBytes bs) hs]
    dsimp only
    rw [run_bind, run_callOn, messageAndCursor]
    dsimp only
    rcases hm : Message.decode r with f | ⟨m, r'⟩
    · have hdecode : Transaction.decode bs = .error f := by
        rw [decode_of_signatures hs, hm]
        rfl
      obtain ⟨c, hrun, hc⟩ := DraftMessage.decode_of_error (m := d.message) (c := ⟨r, .clear⟩) hm
      rw [Cursor.ofBytes, Tracked.fresh, hrun]
      exact .of_error hdecode rfl rfl rfl (by rw [messageRead, hs]; dsimp only; rw [hm]; rfl) hc
    · have hmessage : d.messageRead bs = .clear := by
        rw [messageRead, hs]
        dsimp only
        rw [hm]
        rfl
      have hdecode := decode_of_signatures hs
      rw [hm] at hdecode
      change _ = (Transaction.checkSlots m.required signatures.length >>= fun _ =>
        Transaction.checkEnd r') >>= _ at hdecode
      rw [Cursor.ofBytes, Tracked.fresh, DraftMessage.decode_of_ok hm]
      dsimp only
      rw [run_keep]
      dsimp only [Tracked.fresh]
      rcases hcheck : Transaction.checkSlots m.required signatures.length >>= fun _ =>
        Transaction.checkEnd r' with f | _
      · rw [hcheck] at hdecode
        exact .of_error hdecode rfl rfl rfl hmessage.symm (.inl rfl)
      · rw [hcheck] at hdecode
        exact
          { log := rfl
            answer := by rw [hdecode]; rfl
            errors := by rw [hdecode]; rfl
            message := hmessage.symm
            cursor := .inl rfl
            content := fun t ht => Except.ok.inj (hdecode.symm.trans ht) }

/-- The draft that holds what was read, or is empty if nothing could be. -/
def loaded (messageErrors : ErrorState) (answer : Except Fault Transaction) : Draft :=
  let t := match answer with
    | .ok t => t
    | .error _ => .empty
  { signatures := t.signatures
    message := { value := t.message, errors := messageErrors }
    errors := .reporting answer }

theorem decode_eq (d : Draft) (bs : Bytes) : d.decode bs =
    { answer := (Transaction.decode bs).map fun _ => ()
      after := loaded (d.messageRead bs) (Transaction.decode bs) } := by
  have h := d.reads bs
  rw [decode, run_orElse, run_beside]
  generalize run (d, .ofBytes bs) read = reply at h ⊢
  obtain ⟨answer, ⟨⟨signatures, ⟨m, messageErrors⟩, errors⟩, c⟩, log⟩ := reply
  obtain ⟨rfl, rfl, rfl, rfl, -, hcontent⟩ := h
  rcases hdecode : Transaction.decode bs with f | t
  · rfl
  · cases hcontent t hdecode
    rfl

/-- What the message reports after a text was read: nothing new if it is no text of bytes. -/
def messageReadText (codec : TextCodec) (d : Draft) (text : Bytes) : ErrorState :=
  match Transaction.readText codec text with
  | .error _ => d.message.errors
  | .ok bs => d.messageRead bs

theorem decodeText_eq (codec : TextCodec) (d : Draft) (text : Bytes) : d.decodeText codec text =
    { answer := (Transaction.decodeText codec text).map fun _ => ()
      after := loaded (d.messageReadText codec text) (Transaction.decodeText codec text) } := by
  rw [decodeText, run_orElse, Transaction.decodeText, messageReadText]
  rcases Transaction.readText codec text with f | bs
  · rfl
  · rw [run_check_ok_bind, run_call, decode_eq]
    dsimp only
    rcases Transaction.decode bs with f | t <;> rfl

end Draft

namespace TrackedCompiler

variable (c : TrackedCompiler) (version : Version) (feePayer : Address) (recentHash : Hash)
  (ixs : List Instruction)

theorem compileNew_eq : ∃ log, c.compileNew version feePayer recentHash ixs =
    let (answer, value) := c.value.compile version feePayer recentHash ixs
    { answer := answer.map .fresh, after := { value, errors := .reporting answer }, log } := by
  unfold compileNew Compiler.compile
  simp only [run_reset_bind, run_modify_bind, run_get_bind, Reporter.report]
  rcases (c.value.collect feePayer ixs).checkCounts with f | _
  · exact ⟨[], rfl⟩
  · rw [run_check_ok_bind, run_modify_bind, run_bind, DraftMessage.run_inPacket]
    dsimp only [Tracked.fresh]
    rcases ((c.value.collect feePayer ixs).message version feePayer recentHash ixs).sizeInPacket
      with f | size
    · exact ⟨[], rfl⟩
    · exact ⟨_, rfl⟩

theorem compile_eq : ∃ log, c.compile version feePayer recentHash ixs =
    let (answer, value) := c.value.compile version feePayer recentHash ixs
    { answer, after := { value, errors := .reporting answer }, log } := by
  obtain ⟨log, hnew⟩ := c.compileNew_eq version feePayer recentHash ixs
  rw [compile, run_bind, run_call, hnew]
  rcases c.value.compile version feePayer recentHash ixs with ⟨f | m, value⟩
  · exact ⟨log, rfl⟩
  · exact ⟨log ++ [], rfl⟩

theorem answer_compile : (c.compile version feePayer recentHash ixs).answer =
    (c.value.compile version feePayer recentHash ixs).1 := by
  obtain ⟨log, h⟩ := c.compile_eq version feePayer recentHash ixs
  rw [h]

theorem value_compile : (c.compile version feePayer recentHash ixs).after.value =
    (c.value.compile version feePayer recentHash ixs).2 := by
  obtain ⟨log, h⟩ := c.compile_eq version feePayer recentHash ixs
  rw [h]

theorem compileInto_eq (m : DraftMessage) : ∃ log,
    c.compileInto m version feePayer recentHash ixs =
      let reply := c.compile version feePayer recentHash ixs
      { answer := reply.answer.map fun _ => ()
        after := (reply.after, match reply.answer with
          | .ok new => .fresh new
          | .error _ => m)
        log } := by
  obtain ⟨_, hcompile⟩ := c.compile_eq version feePayer recentHash ixs
  obtain ⟨log, hnew⟩ := c.compileNew_eq version feePayer recentHash ixs
  rw [compileInto, run_bind, run_callOn, Part.first, hcompile]
  dsimp only
  rw [hnew]
  rcases c.value.compile version feePayer recentHash ixs with ⟨f | new, value⟩
  · exact ⟨log, rfl⟩
  · exact ⟨log ++ [], rfl⟩

end TrackedCompiler

namespace Builder

theorem build_of_inputs_error {b : Builder} {f : Fault} (h : b.inputs = .error f)
    (version : Version) (d : Draft) :
    b.build version d = { answer := .error f, after := ({ b with errors := .ofFault f }, d) } := by
  rw [build, run_reset_bind, h]
  rfl

theorem build_of_inputs {b : Builder} {feePayer : Address} {recentHash : Hash}
    {ixs : List Instruction} (h : b.inputs = .ok (feePayer, recentHash, ixs)) (version : Version)
    (d : Draft) : ∃ log, b.build version d =
      let reply := b.compiler.compile version feePayer recentHash ixs
      { answer := reply.answer.map fun _ => ()
        after :=
          ({ b with compiler := reply.after, errors := .reporting reply.answer },
            match reply.answer with
            | .ok m => .ofMessage m
            | .error _ => d)
        log } := by
  obtain ⟨_, hcompile⟩ := b.compiler.compile_eq version feePayer recentHash ixs
  obtain ⟨log, hinto⟩ := b.compiler.compileInto_eq version feePayer recentHash ixs d.message
  rw [build, run_reset_bind, h, run_check_ok_bind]
  dsimp only [Reporter.report]
  rw [run_bind, run_callOn, compilerAndMessage]
  dsimp only
  rw [hinto, hcompile]
  rcases b.compiler.value.compile version feePayer recentHash ixs with ⟨f | m, value⟩
  · exact ⟨log, rfl⟩
  · exact ⟨_, rfl⟩

end Builder

end OfflineTx
