import OfflineTx.Proofs.RoundTrip

/-!
# Input that goes on

More bytes behind the input leave what was read as it was, and leave each fault as it was except
for one: where bytes were wanting, anything may now be read (`Lasts`). Reading one thing after
another inherits this from its parts (`Lasting.bind`), since every check between two reads is of
what was read and not of what follows. So a transaction that was accepted is now followed by
trailing bytes, and what was refused for its content stays refused (`decode_monotone`).
-/

namespace OfflineTx

open Wire

namespace CompactLength

/-- Whether a length begins the bytes is decided by themselves, unless they end inside it. -/
theorem decode_append {bs more : Bytes} (h : decode bs ≠ .error .truncated) :
    decode (bs ++ more) = decode bs := by
  rcases bs with _ | ⟨a, bs⟩
  · exact absurd rfl h
  by_cases ha : a.toNat < 128
  · simp only [List.cons_append, decode, ha, if_true]
  rcases bs with _ | ⟨b, bs⟩
  · simp [decode, ha] at h
  by_cases hz : b.toNat = 0
  · simp only [List.cons_append, decode, ha, hz, if_true]
  by_cases hb : b.toNat < 128
  · simp only [List.cons_append, decode, ha, hz, hb, if_true]
  rcases bs with _ | ⟨c, bs⟩
  · simp [decode, ha, hz, hb] at h
  · rfl

end CompactLength

namespace Wire.Reader

/-- The reader with `bs` behind all it sees. -/
def followedBy (r : Reader) (bs : Bytes) : Reader :=
  { r with rest := r.rest ++ bs }

/-- An outcome of reading, and the outcome with `bs` behind the input. What was read is read again
and leaves the same place. A fault stays, unless it was that bytes were wanting. -/
inductive Lasts {α : Type} (bs : Bytes) :
    Except Fault (α × Reader) → Except Fault (α × Reader) → Prop
  | read (a : α) (r : Reader) : Lasts bs (.ok (a, r)) (.ok (a, r.followedBy bs))
  | refused (f : Fault) : Lasts bs (.error f) (.error f)
  | truncated {f : Fault} (hf : f.kind = .truncated) (later : Except Fault (α × Reader)) :
    Lasts bs (.error f) later

/-- More bytes behind the input do not change what was read, nor a fault for other than missing
bytes. -/
def Lasting {α : Type} (read : Reader → Except Fault (α × Reader)) : Prop :=
  ∀ r bs, Lasts bs (read r) (read (r.followedBy bs))

variable {α β : Type} {read : Reader → Except Fault (α × Reader)}

theorem lasting_pure (a : α) : Lasting fun r => pure (a, r) :=
  fun r _ => .read a r

theorem Lasting.bind {next : α × Reader → Except Fault (β × Reader)} (h : Lasting read)
    (hnext : ∀ a, Lasting fun r => next (a, r)) : Lasting fun r => read r >>= next := by
  intro r bs
  have hr := h r bs
  dsimp only
  generalize read r = before at hr ⊢
  generalize read (r.followedBy bs) = later at hr ⊢
  cases hr with
  | read a r => exact hnext a r bs
  | refused f => exact .refused f
  | truncated hf => exact .truncated hf _

theorem Lasting.ok (h : Lasting read) {r r' : Reader} {a : α} (hr : read r = .ok (a, r'))
    (bs : Bytes) : read (r.followedBy bs) = .ok (a, r'.followedBy bs) := by
  have hlasts := h r bs
  rw [hr] at hlasts
  generalize read (r.followedBy bs) = later at hlasts ⊢
  cases hlasts with
  | read => rfl

theorem Lasting.error (h : Lasting read) {r : Reader} {f : Fault} (hr : read r = .error f)
    (hf : f.kind ≠ .truncated) (bs : Bytes) : read (r.followedBy bs) = .error f := by
  have hlasts := h r bs
  rw [hr] at hlasts
  generalize read (r.followedBy bs) = later at hlasts ⊢
  cases hlasts with
  | refused => rfl
  | truncated htrunc => exact absurd htrunc hf

/-- A check of what was read does not depend on what follows. -/
theorem Lasting.check {next : Reader → Except Fault (β × Reader)} (check : Except Fault Unit)
    (h : Lasting next) : Lasting fun r => check >>= fun _ => next r := by
  intro r bs
  rcases check with f | _
  · exact .refused f
  · exact h r bs

section Fields

variable {r : Reader} {bs : Bytes} (what : Bytes)

theorem followedBy_advance {n : Nat} (h : n ≤ r.rest.length) :
    (r.followedBy bs).advance n = (r.advance n).followedBy bs := by
  simp only [followedBy, advance, List.drop_append_of_le_length h]

theorem length_le_followedBy : r.rest.length ≤ (r.followedBy bs).rest.length := by
  rw [followedBy, List.length_append]
  omega

theorem fits_followedBy {n : Nat} (h : Bytes.fits n r.rest = true) :
    Bytes.fits n (r.followedBy bs).rest = true :=
  Bytes.fits_iff.2 (Nat.le_trans (Bytes.fits_iff.1 h) length_le_followedBy)

theorem lasting_byte : Lasting (Reader.byte what) := by
  rintro ⟨offset, rest⟩ bs
  cases rest with
  | nil => exact .truncated rfl _
  | cons b rest => exact .read b ⟨offset + 1, rest⟩

theorem lasting_bytes (n : Nat) : Lasting (Reader.bytes n what) := by
  intro r bs
  unfold Reader.bytes
  split
  · rename_i h
    have hle := Bytes.fits_iff.1 h
    rw [if_pos (fits_followedBy h), followedBy_advance hle, followedBy,
      List.take_append_of_le_length hle]
    exact .read _ _
  · exact .truncated rfl _

theorem lasting_fixed (n : Nat) : Lasting (Reader.fixed n what) := by
  intro r bs
  unfold Reader.fixed
  split
  · rename_i h
    have hle := Bytes.fits_iff.1 h
    rw [dif_pos (fits_followedBy h), followedBy_advance hle]
    simp only [followedBy, List.take_append_of_le_length hle]
    exact .read _ _
  · exact .truncated rfl _

theorem lasting_length : Lasting (Reader.length what) := by
  intro r bs
  rcases h : CompactLength.decode r.rest with defect | ⟨v, used⟩
  · cases defect with
    | truncated =>
      simp only [Reader.length, h]
      exact .truncated rfl _
    | malformed =>
      have hlater : CompactLength.decode (r.followedBy bs).rest = .error .malformed :=
        (CompactLength.decode_append (by simp [h])).trans h
      simp only [Reader.length, h, hlater]
      exact .refused _
  · have hlater : CompactLength.decode (r.followedBy bs).rest = .ok (v, used) :=
      (CompactLength.decode_append (by simp [h])).trans h
    have hle : used ≤ r.rest.length := by
      obtain ⟨rfl, hbs⟩ := CompactLength.eq_encode_of_decode h
      rw [hbs, List.length_append, CompactLength.length_encode]
      omega
    simp only [Reader.length, h, hlater, followedBy_advance hle]
    exact .read _ _

theorem lasting_counted : Lasting (Reader.counted what) := by
  intro r bs
  have hr := lasting_length what r bs
  unfold Reader.counted
  generalize r.length what = before at hr ⊢
  generalize (r.followedBy bs).length what = later at hr ⊢
  cases hr with
  | read n r => exact lasting_bytes what n.toNat r bs
  | refused f => exact .refused f
  | truncated hf => exact .truncated hf _

theorem Lasting.repeatOnto (h : Lasting read) :
    ∀ (n : Nat) (done : List α), Lasting (Reader.repeatOnto read n done)
  | 0, done => lasting_pure done.reverse
  | n + 1, done => by
    intro r bs
    have hr := h r bs
    unfold Reader.repeatOnto
    generalize read r = before at hr ⊢
    generalize read (r.followedBy bs) = later at hr ⊢
    cases hr with
    | read a r => exact h.repeatOnto n (a :: done) r bs
    | refused f => exact .refused f
    | truncated hf => exact .truncated hf _

theorem needElements_followedBy {n size : UInt64} (h : r.needElements n size what = .ok ()) :
    (r.followedBy bs).needElements n size what = .ok () :=
  need_eq_ok_iff.2 (Nat.le_trans (need_eq_ok_iff.1 h) length_le_followedBy)

theorem kind_of_needElements {n size : UInt64} {f : Fault}
    (h : r.needElements n size what = .error f) : f.kind = .truncated := by
  unfold needElements need at h
  split at h
  · cases h
  · cases h
    rfl

theorem Lasting.elements (h : Lasting read) (size : UInt64) :
    Lasting (Reader.elements what size read) := by
  intro r bs
  have hr := lasting_length what r bs
  unfold Reader.elements
  generalize r.length what = before at hr ⊢
  generalize (r.followedBy bs).length what = later at hr ⊢
  cases hr with
  | read n r =>
    dsimp only
    rcases hroom : r.needElements n.toUInt64 size what with f | _
    · exact .truncated (kind_of_needElements what hroom) _
    · rw [needElements_followedBy what hroom]
      exact h.repeatOnto n.toNat [] r bs
  | refused f => exact .refused f
  | truncated hf => exact .truncated hf _

end Fields

end Wire.Reader

namespace Message

open Wire.Reader

theorem lasting_readVersion : Lasting readVersion := by
  rintro ⟨offset, rest⟩ bs
  cases rest with
  | nil => exact .truncated rfl _
  | cons b rest =>
    change Lasts bs (if b < 0x80 then _ else _) (if b < 0x80 then _ else _)
    split
    · exact .read _ _
    · change Lasts bs (if b = 0x80 then _ else _) (if b = 0x80 then _ else _)
      split
      · exact .read _ _
      · exact .refused _

theorem lasting_readHeader : Lasting readHeader :=
  (lasting_byte _).bind fun _ => (lasting_byte _).bind fun _ => (lasting_byte _).bind fun _ =>
    lasting_pure _

theorem lasting_readKeys : Lasting readKeys :=
  (lasting_fixed _ 32).elements _ _

theorem lasting_readInstruction : Lasting readInstruction :=
  (lasting_byte _).bind fun _ => (lasting_counted _).bind fun _ =>
    (lasting_counted _).bind fun _ => lasting_pure _

theorem lasting_readLookup : Lasting readLookup :=
  (lasting_fixed _ 32).bind fun _ => (lasting_counted _).bind fun _ =>
    (lasting_counted _).bind fun _ => lasting_pure _

theorem lasting_readLookups (version : Version) : Lasting (readLookups version) := by
  cases version with
  | legacy => exact lasting_pure _
  | v0 => exact lasting_readLookup.elements _ _

theorem lasting_decode : Lasting decode :=
  lasting_readVersion.bind fun version => lasting_readHeader.bind fun _ =>
    lasting_readKeys.bind fun _ => Lasting.check _ <| (lasting_fixed _ 32).bind fun _ =>
      (lasting_readInstruction.elements _ _).bind fun _ =>
        (lasting_readLookups version).bind fun _ => Lasting.check _ (lasting_pure _)

end Message

namespace Transaction

open Wire.Reader

variable {t : Transaction} {bs more : Bytes} {f : Fault} {kind : FaultKind}

/-- Reads a transaction from where the reader stands, whatever follows it. -/
def readOne (r : Reader) : Except Fault (Transaction × Reader) := do
  let (signatures, r) ← readSignatures r
  let (message, r) ← Message.decode r
  checkSlots message.required signatures.length
  pure ({ signatures, message }, r)

theorem lasting_readOne : Lasting readOne :=
  ((lasting_fixed _ 64).elements _ _).bind fun _ => Message.lasting_decode.bind fun _ =>
    Lasting.check _ (lasting_pure _)

theorem decode_eq_readOne (bs : Bytes) : decode bs = (do
    let (t, r) ← readOne (.ofBytes bs)
    checkEnd r
    pure t) := by
  simp only [decode, readOne, bind_assoc, pure_bind]

theorem decode_of_readOne {r : Reader} (h : readOne (.ofBytes bs) = .ok (t, r)) :
    decode bs = if r.rest = [] then .ok t else .error (.trailingBytes r.offset r.rest.length) := by
  rw [decode_eq_readOne, h]
  change (checkEnd r >>= fun _ => pure t) = _
  unfold checkEnd atEnd
  cases r.rest with
  | nil => rfl
  | cons b rest => rfl

theorem decode_of_readOne_error (h : readOne (.ofBytes bs) = .error f) : decode bs = .error f := by
  rw [decode_eq_readOne, h]
  rfl

/-- Once a transaction was read, bytes behind it are trailing, also those that are there already. -/
theorem failsFor_trailingBytes {r : Reader} (h : readOne (.ofBytes bs) = .ok (t, r))
    (hrest : (r.followedBy more).rest ≠ []) : FailsFor (decode (bs ++ more)) .trailingBytes := by
  have hlater : readOne (.ofBytes (bs ++ more)) = .ok (t, r.followedBy more) :=
    lasting_readOne.ok h more
  rw [decode_of_readOne hlater, if_neg hrest, failsFor_error]
  rfl

theorem decode_append_of_ok (h : decode bs = .ok t) (hmore : more ≠ []) :
    FailsFor (decode (bs ++ more)) .trailingBytes := by
  rcases hread : readOne (.ofBytes bs) with f | ⟨u, r⟩
  · rw [decode_of_readOne_error hread] at h
    cases h
  · exact failsFor_trailingBytes hread fun hnil => hmore (List.append_eq_nil_iff.1 hnil).2

theorem decode_append_of_failsFor (h : FailsFor (decode bs) kind) (hkind : kind ≠ .truncated) :
    FailsFor (decode (bs ++ more)) kind := by
  obtain ⟨f, hf, rfl⟩ := h
  rcases hread : readOne (.ofBytes bs) with g | ⟨u, r⟩
  · rw [decode_of_readOne_error hread, Except.error.injEq] at hf
    subst hf
    exact ⟨g, decode_of_readOne_error (lasting_readOne.error hread hkind more), rfl⟩
  · rw [decode_of_readOne hread] at hf
    split at hf
    · cases hf
    · rename_i hrest
      cases hf
      exact failsFor_trailingBytes hread fun hnil => hrest (List.append_eq_nil_iff.1 hnil).1

/-- With more bytes behind, a transaction that was read is followed by trailing bytes, and what was
refused is refused for the same, unless bytes were wanting. So bytes are wanting in whatever is
left of a transaction that is cut short. -/
theorem decode_monotone (hmore : more ≠ []) :
    (∀ t, decode bs = .ok t → FailsFor (decode (bs ++ more)) .trailingBytes) ∧
      (∀ kind, kind ≠ .truncated → FailsFor (decode bs) kind →
        FailsFor (decode (bs ++ more)) kind) ∧
      ∀ t, decode (bs ++ more) = .ok t →
        ∀ kind, FailsFor (decode bs) kind ↔ kind = .truncated := by
  refine ⟨fun t h => decode_append_of_ok h hmore,
    fun kind hkind h => decode_append_of_failsFor h hkind, fun t h kind => ?_⟩
  have hnot (kind : FaultKind) : ¬FailsFor (decode (bs ++ more)) kind := by
    rw [h]
    exact not_failsFor_ok
  rcases hbs : decode bs with f | u
  · have hf : f.kind = .truncated := by
      by_cases hkind : f.kind = .truncated
      · exact hkind
      · exact absurd (decode_append_of_failsFor ⟨f, hbs, rfl⟩ hkind) (hnot f.kind)
    rw [failsFor_error, hf, eq_comm]
  · exact absurd (decode_append_of_ok hbs hmore) (hnot _)

/-- A transaction with one byte more, bytes of an unknown version, and a transaction without its
last byte. -/
theorem decode_monotone_loading :
    let whole := signaturesWire loading.signatures ++ loading.message.wire
    decode whole = .ok loading ∧ FailsFor (decode (whole ++ [0])) .trailingBytes ∧
      FailsFor (decode [0, 0x81]) .unsupportedVersion ∧
      FailsFor (decode ([0, 0x81] ++ [0])) .unsupportedVersion ∧
      decode (whole.dropLast ++ [5]) = .ok loading ∧
      ∀ kind, FailsFor (decode whole.dropLast) kind ↔ kind = .truncated := by
  have hversion : FailsFor (decode [0, 0x81]) .unsupportedVersion := ⟨_, rfl, rfl⟩
  have hone : ∀ b : UInt8, [b] ≠ [] := by simp
  exact ⟨rfl, (decode_monotone (hone 0)).1 loading rfl, hversion,
    (decode_monotone (hone 0)).2.1 _ (by decide) hversion, rfl,
    (decode_monotone (hone 5)).2.2 loading rfl⟩

end Transaction

end OfflineTx
