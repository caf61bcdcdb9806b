import OfflineTx.Proofs.Delimiting
import OfflineTx.Proofs.Prefixes
import OfflineTx.Wire.Cursor

/-!
# Where a cursor stands

A cursor stands inside its buffer, and a read at its position takes the bytes from there to the new
position, or fails and leaves it (`outcome_read`). So it is after any reads (`after_eq`). Where the
form of a datum stands at the position the read of its kind gives the datum (`read_datum`), and so
reads of the kinds in a row give back what a writer wrote, each from the bytes written for it
(`reads_back_within`).
-/

namespace OfflineTx.Wire

/-- What a writer writes and a cursor can read back. -/
inductive Datum
  | byte (v : UInt8)
  | address (v : Address)
  | signature (v : Signature)
  | length (v : UInt16)
  | bytes (v : Bytes) (length_lt : v.length < 2 ^ 64)

namespace Datum

def field : Datum → Field
  | byte v => .byte v
  | address v => .address v
  | signature v => .signature v
  | length v => .length v
  | bytes v _ => .bytes v

/-- The read of the kind of the datum. The length of bytes has to be known. -/
def request : Datum → Request
  | byte _ => .byte
  | address _ => .address
  | signature _ => .signature
  | length _ => .length
  | bytes v _ => .bytes (.ofNat v.length)

def answer : Datum → Answer
  | byte v => .number v.toNat
  | address v => .bytes v.bytes
  | signature v => .bytes v.bytes
  | length v => .number v.toNat
  | bytes v _ => .bytes v

def wire (d : Datum) : Bytes :=
  d.field.wire

end Datum

namespace Reader

variable {r r' : Reader} {request : Request} {what : Bytes} {a : Answer} {f : Fault}

theorem answer_datum {d : Datum} (h : r.Passes d.wire r') (what : Bytes) :
    r.answer d.request what = .ok (d.answer, r') := by
  cases d with
  | byte v => exact map_eq_ok_iff.2 ⟨_, byte_eq_ok_iff.2 h, rfl⟩
  | address v => exact map_eq_ok_iff.2 ⟨_, fixed_eq_ok_iff.2 h, rfl⟩
  | signature v => exact map_eq_ok_iff.2 ⟨_, fixed_eq_ok_iff.2 h, rfl⟩
  | length v => exact map_eq_ok_iff.2 ⟨_, length_eq_ok_iff.2 h, rfl⟩
  | bytes v hv =>
    have hn : (UInt64.ofNat v.length).toNat = v.length := by
      rw [UInt64.toNat_ofNat']
      exact Nat.mod_eq_of_lt hv
    refine map_eq_ok_iff.2 ⟨(v, r'), ?_, rfl⟩
    rw [hn]
    exact bytes_eq_ok_iff.2 ⟨rfl, h⟩

/-- A read that is answered peeks, checks for room or passes the form of a datum. -/
theorem answer_cases (h : r.answer request what = .ok (a, r')) :
    (∃ b bs, request = .peek ∧ a = .number b.toNat ∧ r' = r ∧ r.rest = b :: bs) ∨
      (∃ n size, request = .elements n size ∧ a = .nothing ∧ r' = r ∧
        (n * size).toNat ≤ r.rest.length) ∨
      ∃ d : Datum, request = d.request ∧ a = d.answer ∧ r.Passes d.wire r' := by
  cases request with
  | peek =>
    obtain ⟨b, hb, hr⟩ := map_eq_ok_iff.1 h
    cases hr
    obtain ⟨bs, hbs⟩ := peek_eq_ok_iff.1 hb
    exact .inl ⟨b, bs, rfl, rfl, rfl, hbs⟩
  | byte =>
    obtain ⟨⟨v, _⟩, hv, hr⟩ := map_eq_ok_iff.1 h
    cases hr
    exact .inr (.inr ⟨.byte v, rfl, rfl, byte_eq_ok_iff.1 hv⟩)
  | address =>
    obtain ⟨⟨v, _⟩, hv, hr⟩ := map_eq_ok_iff.1 h
    cases hr
    exact .inr (.inr ⟨.address v, rfl, rfl, fixed_eq_ok_iff.1 hv⟩)
  | signature =>
    obtain ⟨⟨v, _⟩, hv, hr⟩ := map_eq_ok_iff.1 h
    cases hr
    exact .inr (.inr ⟨.signature v, rfl, rfl, fixed_eq_ok_iff.1 hv⟩)
  | length =>
    obtain ⟨⟨v, _⟩, hv, hr⟩ := map_eq_ok_iff.1 h
    cases hr
    exact .inr (.inr ⟨.length v, rfl, rfl, length_eq_ok_iff.1 hv⟩)
  | bytes n =>
    obtain ⟨⟨v, _⟩, hv, hr⟩ := map_eq_ok_iff.1 h
    cases hr
    obtain ⟨hlen, hp⟩ := bytes_eq_ok_iff.1 hv
    refine .inr (.inr ⟨.bytes v (hlen ▸ n.toNat_lt), ?_, rfl, hp⟩)
    rw [Datum.request, hlen, UInt64.ofNat_toNat]
  | elements n size =>
    obtain ⟨_, hroom, hr⟩ := map_eq_ok_iff.1 h
    cases hr
    exact .inr (.inl ⟨n, size, rfl, rfl, rfl, need_eq_ok_iff.1 hroom⟩)

theorem kind_of_fixed {n : Nat} (h : r.fixed n what = .error f) : f.kind = .truncated := by
  unfold fixed at h
  split at h <;> cases h
  rfl

theorem kind_of_answer (h : r.answer request what = .error f) :
    f.kind = .truncated ∨ f.kind = .malformedLength := by
  cases request with
  | peek =>
    have hf := map_eq_error_iff.1 h
    unfold peek at hf
    split at hf <;> cases hf
    exact .inl rfl
  | byte =>
    have hf := map_eq_error_iff.1 h
    unfold byte at hf
    split at hf <;> cases hf
    exact .inl rfl
  | address => exact .inl (kind_of_fixed (map_eq_error_iff.1 h))
  | signature => exact .inl (kind_of_fixed (map_eq_error_iff.1 h))
  | length =>
    have hf := map_eq_error_iff.1 h
    unfold length at hf
    split at hf <;> cases hf
    · exact .inl rfl
    · exact .inr rfl
  | bytes n =>
    have hf := map_eq_error_iff.1 h
    unfold bytes at hf
    split at hf <;> cases hf
    exact .inl rfl
  | elements n size => exact .inl (kind_of_needElements what (map_eq_error_iff.1 h))

end Reader

/-- What a read at position `k` of a buffer takes for its answer, and the position after it: the
next byte and none, room and none, or the form of a datum. -/
inductive Taken (buffer : Bytes) (k : Nat) : Request → Answer → Nat → Prop
  | peeked {b : UInt8} (h : buffer[k]? = some b) : Taken buffer k .peek (.number b.toNat) k
  | room {n size : UInt64} (h : k + (n * size).toNat ≤ buffer.length) :
      Taken buffer k (.elements n size) .nothing k
  | passed {d : Datum} (h : buffer.extract k (k + d.wire.length) = d.wire) :
      Taken buffer k d.request d.answer (k + d.wire.length)

namespace Cursor

/-- The cursor of a buffer at a position in it, with nothing to report. -/
def within (buffer : Bytes) (k : Nat) : Cursor :=
  .fresh (Reader.within buffer k)

/-- The cursor after reads, each of which names what it reads. -/
def after (c : Cursor) (rs : List (Request × Bytes)) : Cursor :=
  rs.foldl (fun c r => (c.read r.1 r.2).2) c

/-- What may come of a read at position `k` of a buffer. If it fails, the position is kept and the
fault is reported. -/
inductive Outcome (buffer : Bytes) (k : Nat) (errors : ErrorState) (request : Request) :
    Except Fault Answer × Cursor → Prop
  | read {a : Answer} {k' : Nat} (hle : k ≤ k' ∧ k' ≤ buffer.length)
      (h : Taken buffer k request a k') :
      Outcome buffer k errors request (.ok a, { value := Reader.within buffer k', errors })
  | failed {f : Fault} (hf : f.kind = .truncated ∨ f.kind = .malformedLength) :
      Outcome buffer k errors request
        (.error f, { value := Reader.within buffer k, errors := .ofFault f })

variable {buffer more : Bytes} {k : Nat}

/-- The position after what was passed is still in the buffer. -/
theorem outcome_read (hk : k ≤ buffer.length) (errors : ErrorState) (request : Request)
    (what : Bytes) : Outcome buffer k errors request
      (Cursor.read request what { value := Reader.within buffer k, errors }) := by
  rcases h : (Reader.within buffer k).answer request what with f | ⟨a, r⟩
  · simp only [read_eq, h]
    exact .failed (Reader.kind_of_answer h)
  · simp only [read_eq, h]
    rcases Reader.answer_cases h with ⟨b, bs, rfl, rfl, rfl, hrest⟩ |
      ⟨n, size, rfl, rfl, rfl, hroom⟩ | ⟨d, rfl, rfl, hp⟩
    · refine .read ⟨Nat.le_refl k, hk⟩ (.peeked ?_)
      rw [Reader.rest_within] at hrest
      rw [← Nat.add_zero k, ← List.getElem?_drop, hrest, List.getElem?_cons_zero]
    · refine .read ⟨Nat.le_refl k, hk⟩ (.room ?_)
      rw [Reader.rest_within, List.length_drop] at hroom
      omega
    · have hlen := hp.length_le
      rw [Reader.rest_within, List.length_drop] at hlen
      obtain ⟨rfl, hbytes⟩ := hp.between
      exact .read ⟨Nat.le_add_right k _, by omega⟩ (.passed hbytes)

theorem after_eq (buffer : Bytes) (rs : List (Request × Bytes)) : ∀ {k : Nat}
    (errors : ErrorState), k ≤ buffer.length → ∃ k' ≤ buffer.length, ∃ errors' : ErrorState,
      after { value := Reader.within buffer k, errors } rs =
        { value := Reader.within buffer k', errors := errors' } := by
  induction rs with
  | nil => exact fun errors hk => ⟨_, hk, errors, rfl⟩
  | cons r rs ih =>
    intro k errors hk
    have hread := outcome_read hk errors r.1 r.2
    rw [after, List.foldl_cons]
    generalize Cursor.read r.1 r.2 { value := Reader.within buffer k, errors } = reply at hread ⊢
    cases hread with
    | read hle _ => exact ih errors hle.2
    | failed _ => exact ih _ hk

/-- Where the form of a datum stands, the read of its kind gives the datum and passes the form. -/
theorem read_datum {d : Datum} (h : buffer.drop k = d.wire ++ more) (what : Bytes) :
    (within buffer k).read d.request what = (.ok d.answer, within buffer (k + d.wire.length)) := by
  have hp : (Reader.within buffer k).Passes d.wire (Reader.within buffer (k + d.wire.length)) := by
    refine ⟨?_, by simp⟩
    rw [Reader.rest_within, Reader.rest_within, ← List.drop_drop, h, List.drop_left]
  simp only [read_eq, within, Tracked.fresh, Reader.answer_datum hp]

/-- The reads of the kinds of data, each with the name it is read under. -/
def requests (ds : List (Datum × Bytes)) : List (Request × Bytes) :=
  ds.map fun d => (d.1.request, d.2)

def written (ds : List (Datum × Bytes)) : Bytes :=
  (Writer.addAll {} (ds.map fun d => d.1.field)).written

theorem written_cons (d : Datum × Bytes) (ds : List (Datum × Bytes)) :
    written (d :: ds) = d.1.wire ++ written ds := by
  simp only [written, Writer.addAll_written, List.map_cons, List.flatMap_cons, List.nil_append]
  rfl

theorem written_append (ds es : List (Datum × Bytes)) :
    written (ds ++ es) = written ds ++ written es := by
  simp only [written, Writer.addAll_written, List.map_append, List.flatMap_append, List.nil_append]

theorem after_requests : ∀ {ds : List (Datum × Bytes)} {k : Nat},
    buffer.drop k = written ds ++ more →
      (within buffer k).after (requests ds) = within buffer (k + (written ds).length)
  | [], _, _ => rfl
  | d :: ds, k, h => by
    rw [written_cons, List.append_assoc] at h
    have hrest : buffer.drop (k + d.1.wire.length) = written ds ++ more := by
      rw [← List.drop_drop, h, List.drop_left]
    rw [requests, List.map_cons, after, List.foldl_cons, read_datum h, written_cons,
      List.length_append, ← Nat.add_assoc]
    exact after_requests hrest

theorem after_ofBytes {ds : List (Datum × Bytes)} (h : buffer = written ds ++ more) :
    (ofBytes buffer).after (requests ds) = within buffer (written ds).length := by
  have hafter := after_requests (k := 0) (List.drop_zero.trans h)
  rwa [Nat.zero_add] at hafter

/-- What a writer wrote, with any bytes behind it, is read back datum by datum: each read gives the
datum and passes the bytes written for it, and the last one ends where the further bytes begin.
Whatever is asked of a cursor, it stands inside its buffer, and a read takes bytes of the buffer or
fails, which leaves the position and is reported. -/
theorem reads_back_within :
    (∀ (ds : List (Datum × Bytes)) (more : Bytes),
      (∀ i d what, ds[i]? = some (d, what) →
        (ofBytes (written ds ++ more)).after (requests (ds.take i)) =
            within (written ds ++ more) (written (ds.take i)).length ∧
          (within (written ds ++ more) (written (ds.take i)).length).read d.request what =
            (.ok d.answer,
              within (written ds ++ more) ((written (ds.take i)).length + d.wire.length))) ∧
      (ofBytes (written ds ++ more)).after (requests ds) =
        within (written ds ++ more) (written ds).length) ∧
    ∀ (buffer : Bytes) (rs : List (Request × Bytes)),
      ∃ k ≤ buffer.length, ∃ errors : ErrorState,
        (ofBytes buffer).after rs = { value := Reader.within buffer k, errors } ∧
        ∀ request what, Outcome buffer k errors request
          (((ofBytes buffer).after rs).read request what) := by
  refine ⟨fun ds more => ⟨fun i d what hd => ?_, after_ofBytes rfl⟩, fun buffer rs => ?_⟩
  · obtain ⟨hi, hget⟩ := List.getElem?_eq_some_iff.1 hd
    -- The data in three parts: those read before, this one, and those that come later.
    have hsplit : written ds = written (ds.take i) ++ (d.wire ++ written (ds.drop (i + 1))) := by
      rw [← written_cons (d, what), ← hget, ← List.drop_eq_getElem_cons hi, ← written_append,
        List.take_append_drop]
    have hbuffer : written ds ++ more =
        written (ds.take i) ++ (d.wire ++ (written (ds.drop (i + 1)) ++ more)) := by
      rw [hsplit, List.append_assoc, List.append_assoc]
    have hdrop : (written ds ++ more).drop (written (ds.take i)).length =
        d.wire ++ (written (ds.drop (i + 1)) ++ more) := by
      rw [hbuffer, List.drop_left]
    exact ⟨after_ofBytes hbuffer, read_datum hdrop what⟩
  · obtain ⟨k, hk, errors, hafter⟩ := after_eq buffer rs .clear (Nat.zero_le _)
    refine ⟨k, hk, errors, hafter, fun request what => ?_⟩
    change Outcome _ _ _ _ (Cursor.read request what
      (after { value := Reader.within buffer 0, errors := .clear } rs))
    rw [hafter]
    exact outcome_read hk errors request what

/-- A byte, a length of two bytes, a key, three bytes and a signature. -/
def assorted : List (Datum × Bytes) :=
  [(.byte 0x80, ascii "version"), (.length 300, ascii "count"),
    (.address (.padded 32 [1]), ascii "key"), (.bytes [4, 5, 6] (by decide), ascii "data"),
    (.signature (.padded 64 [2]), ascii "signature")]

theorem reads_back_within_assorted :
    assorted[3]? = some (.bytes [4, 5, 6] (by decide), ascii "data") ∧
      (ofBytes (written assorted ++ [9])).after (requests (assorted.take 3)) =
        within (written assorted ++ [9]) 35 ∧
      (within (written assorted ++ [9]) 35).read (.bytes 3) (ascii "data") =
        (.ok (.bytes [4, 5, 6]), within (written assorted ++ [9]) 38) := by
  have hdata : assorted[3]? = some (.bytes [4, 5, 6] (by decide), ascii "data") := rfl
  exact ⟨hdata, (reads_back_within.1 assorted [9]).1 3 _ _ hdata⟩

end Cursor

end OfflineTx.Wire
