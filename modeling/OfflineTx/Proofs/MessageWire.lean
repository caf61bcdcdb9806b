import OfflineTx.Message.Codec
import OfflineTx.Proofs.Reading

/-!
# Messages on the wire

A message is consistent when its header fits its account table, its indices refer to accounts, and
a legacy message neither loads accounts nor requires so many signatures that its first byte would
be taken for a version. Reading gives exactly the consistent messages whose lists can be counted,
each from its wire form (`decode_reads`).
-/

namespace OfflineTx

open Wire
open Wire.Reader hiding counted

/-- The lists of the instruction are short enough for their lengths to be written. -/
structure CompiledInstruction.Countable (ix : CompiledInstruction) : Prop where
  accounts : ix.accounts.length ≤ 0xffff
  data : ix.data.length ≤ 0xffff

structure Lookup.Countable (l : Lookup) : Prop where
  writable : l.writable.length ≤ 0xffff
  readonly : l.readonly.length ≤ 0xffff

namespace Message

/-- The lists of the message are short enough for their lengths to be written. -/
structure Countable (m : Message) : Prop where
  keys : m.keys.length ≤ 0xffff
  instructions : m.instructions.length ≤ 0xffff
  instruction : ∀ ix ∈ m.instructions, ix.Countable
  lookups : m.version = .v0 → m.lookups.length ≤ 0xffff ∧ ∀ l ∈ m.lookups, l.Countable

/-- The counts of the header fit one another and the table, every index refers to an account, and
a legacy message has no lookups and fewer than 128 signers. -/
structure Consistent (m : Message) : Prop where
  required_le : m.required ≤ m.keys.length
  readonlySigned_le : m.header.readonlySigned.toNat ≤ m.required
  readonlyUnsigned_le : m.header.readonlyUnsigned.toNat ≤ m.keys.length - m.required
  program_lt : ∀ ix ∈ m.instructions, ix.program.toNat < m.accountCount
  account_lt : ∀ ix ∈ m.instructions, ∀ i ∈ ix.accounts, i.toNat < m.accountCount
  legacy : m.version = .legacy → m.lookups = [] ∧ m.required < 128

section Encoding

variable {m : Message}

theorem overlong?_eq_none_iff : m.overlong? = none ↔ m.Countable := by
  unfold overlong? lists
  rw [List.find?_eq_none]
  constructor
  · intro h
    simp only [decide_eq_true_eq, Nat.not_lt, List.cons_append, List.mem_cons, List.mem_append,
      List.mem_flatMap, forall_eq_or_imp] at h
    obtain ⟨hk, hi, h⟩ := h
    refine ⟨hk, hi, fun ix hix => ⟨?_, ?_⟩, fun hv => ?_⟩
    · exact h _ (.inl ⟨ix, hix, .inl rfl⟩)
    · exact h _ (.inl ⟨ix, hix, .inr (.inl rfl)⟩)
    · simp only [hv, List.mem_cons, List.mem_flatMap] at h
      refine ⟨h _ (.inr (.inl rfl)), fun l hl => ⟨?_, ?_⟩⟩
      · exact h _ (.inr (.inr ⟨l, hl, .inl rfl⟩))
      · exact h _ (.inr (.inr ⟨l, hl, .inr (.inl rfl)⟩))
  · rintro ⟨hk, hi, hix, hl⟩ l h
    simp only [List.cons_append, List.mem_cons, List.mem_append, List.mem_flatMap] at h
    simp only [decide_eq_true_eq, Nat.not_lt]
    rcases h with rfl | rfl | ⟨ix, hmem, h⟩ | h
    · exact hk
    · exact hi
    · obtain ⟨ha, hd⟩ := hix ix hmem
      rcases h with rfl | rfl | h
      · exact ha
      · exact hd
      · cases h
    · split at h
      · cases h
      · rename_i hv
        obtain ⟨hn, hl⟩ := hl hv
        simp only [List.mem_cons, List.mem_flatMap] at h
        rcases h with rfl | ⟨l, hmem, rfl | rfl | h⟩
        · exact hn
        · exact (hl l hmem).writable
        · exact (hl l hmem).readonly
        · cases h

theorem encode_eq_ok_iff {bs : Bytes} : m.encode = .ok bs ↔ m.Countable ∧ bs = m.wire := by
  rw [← overlong?_eq_none_iff]
  unfold encode
  rcases h : m.overlong? with _ | l
  · simp [eq_comm]
  · simp

end Encoding

section Fields

variable {r r' : Reader}

theorem lt_eighty_iff {b : UInt8} : b < 0x80 ↔ b.toNat < 128 := UInt8.lt_iff_toNat_lt

/-- Without a version byte, a byte below 128 follows. -/
theorem readVersion_eq_ok_iff {v : Version} :
    readVersion r = .ok (v, r') ↔ r.Passes v.wire r' ∧
      (v = .legacy → ∃ b bs, r'.rest = b :: bs ∧ b.toNat < 128) := by
  simp only [readVersion, bind_eq_ok_iff, peek_eq_ok_iff]
  constructor
  · rintro ⟨b, ⟨bs, hb⟩, h⟩
    split at h
    · rename_i hlt
      cases h
      exact ⟨passes_nil.2 rfl, fun _ => ⟨b, bs, hb, lt_eighty_iff.1 hlt⟩⟩
    · obtain ⟨⟨c, next⟩, hc, h⟩ := bind_eq_ok_iff.1 h
      simp only at h
      split at h
      · rename_i heq
        cases h
        rw [heq] at hc
        exact ⟨byte_eq_ok_iff.1 hc, nofun⟩
      · cases h
  · rintro ⟨hp, hlt⟩
    cases v with
    | legacy =>
      obtain rfl := passes_nil.1 hp
      obtain ⟨b, bs, hb, hlt⟩ := hlt rfl
      refine ⟨b, ⟨bs, hb⟩, ?_⟩
      rw [if_pos (lt_eighty_iff.2 hlt)]
      rfl
    | v0 =>
      refine ⟨0x80, ⟨r'.rest, hp.rest_eq⟩, ?_⟩
      rw [if_neg (by decide), byte_eq_ok_iff.2 hp]
      rfl

theorem readHeader_eq_ok_iff {h : Header} :
    readHeader r = .ok (h, r') ↔ r.Passes h.wire r' := by
  simp only [readHeader, bind_eq_ok_iff, Prod.exists, byte_eq_ok_iff, Header.wire, pure,
    Except.pure, Except.ok.injEq, Prod.mk.injEq]
  constructor
  · rintro ⟨a, r₁, ha, b, r₂, hb, c, r₃, hc, rfl, rfl⟩
    exact passes_cons.2 ⟨r₁, ha, passes_cons.2 ⟨r₂, hb, hc⟩⟩
  · intro hp
    obtain ⟨r₁, ha, hp⟩ := passes_cons.1 hp
    obtain ⟨r₂, hb, hc⟩ := passes_cons.1 hp
    exact ⟨_, r₁, ha, _, r₂, hb, _, r', hc, rfl, rfl⟩

theorem instruction_reads :
    Reads readInstruction CompiledInstruction.wire CompiledInstruction.Countable := by
  intro r ix r'
  simp only [readInstruction, bind_eq_ok_iff, Prod.exists, byte_eq_ok_iff, counted_eq_ok_iff,
    CompiledInstruction.wire, pure, Except.pure, Except.ok.injEq, Prod.mk.injEq]
  constructor
  · rintro ⟨p, r₁, hp, as, r₂, ⟨hla, ha⟩, ds, r₃, ⟨hld, hd⟩, rfl, rfl⟩
    exact ⟨⟨hla, hld⟩, passes_cons.2 ⟨r₁, hp, passes_append.2 ⟨r₂, ha, hd⟩⟩⟩
  · rintro ⟨⟨hla, hld⟩, h⟩
    obtain ⟨r₁, hp, h⟩ := passes_cons.1 h
    obtain ⟨r₂, ha, hd⟩ := passes_append.1 h
    exact ⟨_, r₁, hp, _, r₂, ⟨hla, ha⟩, _, r', ⟨hld, hd⟩, rfl, rfl⟩

theorem lookup_reads : Reads readLookup Lookup.wire Lookup.Countable := by
  intro r l r'
  simp only [readLookup, bind_eq_ok_iff, Prod.exists, fixed_eq_ok_iff, counted_eq_ok_iff,
    Lookup.wire, pure, Except.pure, Except.ok.injEq, Prod.mk.injEq]
  constructor
  · rintro ⟨t, r₁, ht, ws, r₂, ⟨hlw, hw⟩, rs, r₃, ⟨hlr, hr⟩, rfl, rfl⟩
    exact ⟨⟨hlw, hlr⟩, passes_append.2 ⟨r₁, ht, passes_append.2 ⟨r₂, hw, hr⟩⟩⟩
  · rintro ⟨⟨hlw, hlr⟩, h⟩
    obtain ⟨r₁, ht, h⟩ := passes_append.1 h
    obtain ⟨r₂, hw, hr⟩ := passes_append.1 h
    exact ⟨_, r₁, ht, _, r₂, ⟨hlw, hw⟩, _, r', ⟨hlr, hr⟩, rfl, rfl⟩

theorem length_counted_pos (bs : Bytes) : 1 ≤ (counted bs).length := by
  have := CompactLength.size_pos (UInt16.ofNat bs.length)
  rw [counted, List.length_append, CompactLength.length_encode]
  omega

theorem three_le_length_wire (ix : CompiledInstruction) : 3 ≤ ix.wire.length := by
  have ha := length_counted_pos ix.accounts
  have hd := length_counted_pos ix.data
  rw [CompiledInstruction.wire, List.length_cons, List.length_append]
  omega

theorem thirtyFour_le_length_wire (l : Lookup) : 34 ≤ l.wire.length := by
  have hw := length_counted_pos l.writable
  have hr := length_counted_pos l.readonly
  rw [Lookup.wire, List.length_append, List.length_append, FixedBytes.length_bytes]
  omega

/-- A list of byte strings of a fixed length is read from the form that counts them. -/
theorem fixedList_reads {n : Nat} {size : UInt64} (what each : Bytes) (hsize : size.toNat = n)
    (hn : n ≤ 2 ^ 48) :
    Reads (Reader.elements what size (Reader.fixed n each)) (listWire FixedBytes.bytes)
      (fun xs => xs.length ≤ 0xffff) := by
  have hread : Reads (Reader.fixed n each) FixedBytes.bytes fun _ => True := by
    intro r a r'
    rw [fixed_eq_ok_iff, true_and]
  intro r xs r'
  rw [elements_reads hread (fun a _ => Nat.le_of_eq (hsize.trans a.length_bytes.symm))
    (hsize ▸ hn), listWire]
  simp only [implies_true, and_true]

theorem keys_reads :
    Reads readKeys (listWire FixedBytes.bytes) (fun keys => keys.length ≤ 0xffff) :=
  fixedList_reads _ _ (by decide) (by decide)

theorem instructions_reads (what : Bytes) :
    Reads (Reader.elements what 3 readInstruction) (listWire CompiledInstruction.wire)
      (fun ixs => ixs.length ≤ 0xffff ∧ ∀ ix ∈ ixs, ix.Countable) :=
  elements_reads instruction_reads (fun ix _ => three_le_length_wire ix) (by decide)

theorem readLookups_v0_reads :
    Reads (readLookups .v0) (listWire Lookup.wire)
      (fun ls => ls.length ≤ 0xffff ∧ ∀ l ∈ ls, l.Countable) :=
  elements_reads lookup_reads (fun l _ => thirtyFour_le_length_wire l) (by decide)

theorem readLookups_eq_ok_iff {m : Message} :
    readLookups m.version r = .ok (m.lookups, r') ↔
      (m.version = .v0 → m.lookups.length ≤ 0xffff ∧ ∀ l ∈ m.lookups, l.Countable) ∧
        (m.version = .legacy → m.lookups = []) ∧ r.Passes m.lookupsWire r' := by
  unfold lookupsWire
  cases m.version with
  | legacy =>
    simp only [readLookups, pure, Except.pure, Except.ok.injEq, Prod.mk.injEq, passes_nil,
      reduceCtorEq, false_implies, true_and, true_implies, eq_comm]
  | v0 =>
    simpa using readLookups_v0_reads r m.lookups r'

end Fields

section Checks

theorem checkHeader_eq_ok_iff {h : Header} {keys : Nat} :
    checkHeader h keys = .ok () ↔ h.required.toNat ≤ keys ∧
      h.readonlySigned.toNat ≤ h.required.toNat ∧
      h.readonlyUnsigned.toNat ≤ keys - h.required.toNat := by
  simp only [checkHeader]
  split
  · simp only [reduceCtorEq, false_iff]
    omega
  · split
    · simp only [reduceCtorEq, false_iff]
      omega
    · split
      · simp only [reduceCtorEq, false_iff]
        omega
      · simp only [true_iff]
        omega

theorem checkIndices_eq_ok_iff {accounts i : Nat} {ix : CompiledInstruction} :
    checkIndices accounts i ix = .ok () ↔
      ix.program.toNat < accounts ∧ ∀ index ∈ ix.accounts, index.toNat < accounts := by
  unfold checkIndices
  split
  · simp only [reduceCtorEq, false_iff]
    omega
  · rename_i hp
    split
    · rename_i index hf
      have hmem := List.mem_of_find?_eq_some hf
      have hge := List.find?_some hf
      simp only [decide_eq_true_eq] at hge
      simp only [reduceCtorEq, false_iff]
      rintro ⟨-, h⟩
      have := h index hmem
      omega
    · rename_i hf
      rw [List.find?_eq_none] at hf
      simp only [true_iff]
      refine ⟨by omega, fun index hmem => ?_⟩
      simpa using hf index hmem

theorem checkInstructions_eq_ok_iff {accounts : Nat} :
    ∀ {i : Nat} {ixs : List CompiledInstruction},
      checkInstructions accounts i ixs = .ok () ↔ ∀ ix ∈ ixs,
        ix.program.toNat < accounts ∧ ∀ index ∈ ix.accounts, index.toNat < accounts
  | _, [] => by simp [checkInstructions]
  | i, ix :: ixs => by
    rw [List.forall_mem_cons, ← checkIndices_eq_ok_iff (i := i),
      ← checkInstructions_eq_ok_iff (i := i + 1), checkInstructions]
    rcases checkIndices accounts i ix with f | ⟨⟩
    · simp
    · simp

end Checks

/-- Reading gives exactly the consistent messages whose lists can be counted, each from its wire
form and whatever follows. -/
theorem decode_reads : Reads decode wire fun m => m.Consistent ∧ m.Countable := by
  intro r m r'
  simp only [decode, bind_eq_ok_iff, Prod.exists, readVersion_eq_ok_iff, readHeader_eq_ok_iff,
    keys_reads _ _ _, fixed_eq_ok_iff, instructions_reads _ _ _ _, pure, Except.pure,
    Except.ok.injEq, Prod.mk.injEq]
  constructor
  · rintro ⟨v, r₁, ⟨hv, hfirst⟩, h, r₂, hh, keys, r₃, ⟨hlk, hk⟩, ⟨⟩, hcheck, hash, r₄, hhash, ixs,
      r₅, ⟨⟨hli, hix⟩, hi⟩, ls, r₆, hl, ⟨⟩, hidx, rfl, rfl⟩
    obtain ⟨hreq, hrs, hru⟩ := checkHeader_eq_ok_iff.1 hcheck
    have hidx := checkInstructions_eq_ok_iff.1 hidx
    obtain ⟨hcl, hleg, hl⟩ := (readLookups_eq_ok_iff (m := ⟨v, h, keys, hash, ixs, ls⟩)).1 hl
    refine ⟨⟨⟨hreq, hrs, hru, fun ix hmem => (hidx ix hmem).1, fun ix hmem => (hidx ix hmem).2,
      fun hv => ⟨hleg hv, ?_⟩⟩, ⟨hlk, hli, hix, hcl⟩⟩, ?_⟩
    -- The byte that was looked at for a version is the first of the header.
    · obtain ⟨b, bs, hb, hlt⟩ := hfirst hv
      rw [hh.rest_eq, Header.wire, List.cons_append, List.cons.injEq] at hb
      obtain ⟨rfl, -⟩ := hb
      exact hlt
    · exact passes_append.2 ⟨r₁, hv, passes_append.2 ⟨r₂, hh, passes_append.2 ⟨r₃, hk,
        passes_append.2 ⟨r₄, hhash, passes_append.2 ⟨r₅, hi, hl⟩⟩⟩⟩⟩
  · rintro ⟨⟨hcons, hcount⟩, hp⟩
    obtain ⟨r₁, hv, hp⟩ := passes_append.1 hp
    obtain ⟨r₂, hh, hp⟩ := passes_append.1 hp
    obtain ⟨r₃, hk, hp⟩ := passes_append.1 hp
    obtain ⟨r₄, hhash, hp⟩ := passes_append.1 hp
    obtain ⟨r₅, hi, hl⟩ := passes_append.1 hp
    refine ⟨m.version, r₁, ⟨hv, fun hleg => ⟨m.header.required, _, hh.rest_eq,
      (hcons.legacy hleg).2⟩⟩, m.header, r₂, hh, m.keys, r₃, ⟨hcount.keys, hk⟩, (),
      checkHeader_eq_ok_iff.2
        ⟨hcons.required_le, hcons.readonlySigned_le, hcons.readonlyUnsigned_le⟩,
      m.recentHash, r₄, hhash, m.instructions, r₅,
      ⟨⟨hcount.instructions, hcount.instruction⟩, hi⟩, m.lookups, r',
      readLookups_eq_ok_iff.2 ⟨hcount.lookups, fun hleg => (hcons.legacy hleg).1, hl⟩, (),
      checkInstructions_eq_ok_iff.2
        fun ix hmem => ⟨hcons.program_lt ix hmem, hcons.account_lt ix hmem⟩, rfl, rfl⟩

end Message

end OfflineTx
